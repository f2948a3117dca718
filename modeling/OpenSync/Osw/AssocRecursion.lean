import OpenSync.Osw.AssocBounds
import Mathlib.Data.List.Chain

/-!
# How the parsing of an association request goes on and ends

`osw_parse_assoc_req_ies` calls itself: a multi-link element has a profile for each station, and
a profile is a sequence of elements.  The multi-link element is put together from several
elements in a buffer of its own.  It is shorter than the request, since the headers of the
elements stay behind, and a profile is shorter than the multi-link element.

`Calls` are the calls that one call makes; `parseMle_eq` is the reason why there are no others.
-/

namespace OpenSync.Osw.AssocReq

open OpenSync.Lib

/-! ## The loops -/

/-- The profiles among subelements; the loop returns at one that is too short. -/
def stations (mle : List UInt8) : List Elem → List (Nat × Nat)
  | [] => []
  | e :: es =>
    if e.id = 0 then
      match profileBody mle e.off e.len with
      | some (some p) => p :: stations mle es
      | _ => []
    else stations mle es

variable {r : List UInt8}

/-- A call of `osw_parse_assoc_req_ies`: a buffer, and the part of it to parse. -/
structure Call where
  buf : List UInt8
  off : Nat
  len : Nat

end OpenSync.Osw.AssocReq
