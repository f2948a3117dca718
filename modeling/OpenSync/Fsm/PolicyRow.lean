import OpenSync.Ds.Ordered
import OpenSync.Fsm.Fqdn

/-!
# Rows of the policy table

`fsm_policy_insert_schema_p` translates a row of `FSM_Policy` to a policy.  A row has up to six
rules, each with an operator and a list of values, and the translation fails if the text of an
operator is none of the known ones.  All allocations succeed here.  A list without values is a
NULL set.  The rule of an operator that is not set is `none`.

The keys of `next` are read four bytes apart, and not `PJS_OVS_MAP_KEYSZ` bytes, so that the second
key is the end of the first one.
-/

namespace OpenSync.FsmPolicy

open OpenSync.Lib OpenSync.Ds

/-- `struct schema_FSM_Policy`; an optional column is `none` when it does not exist. -/
structure Row where
  name : CStr
  idx : Int
  policy : Option CStr
  macOp : Option CStr
  macs : List CStr
  fqdnOp : Option CStr
  fqdns : List CStr
  fqdncatOp : Option CStr
  fqdncats : List Int
  riskOp : Option CStr
  riskLevel : Int
  ipaddrOp : Option CStr
  ipaddrs : List CStr
  appOp : Option CStr
  apps : List CStr
  redirect : List CStr
  next : List (CStr × Int)
  action : Option CStr
  log : Option CStr
  otherConfig : List (CStr × CStr)
deriving DecidableEq

inductive InOut where
  | out
  | in
deriving DecidableEq

inductive RiskOp where
  | eq
  | neq
  | gt
  | lt
  | gte
  | lte
deriving DecidableEq

/-- The actions that a row can ask for. -/
inductive Action where
  | none
  | block
  | allow
  | updateTag
  | gatekeeperReq
  | flushCache
  | flushAllCache
deriving DecidableEq

inductive Report where
  | none
  | blocked
  | all
deriving DecidableEq

/-- `struct fsm_policy_rules`. -/
structure Rules where
  mac : Option (InOut × Option (List CStr))
  fqdn : Option (Fsm.FqdnOp × Option (List CStr))
  cat : Option (InOut × Option (List Int))
  risk : Option (RiskOp × Int)
  ip : Option (InOut × Option (List CStr))
  app : Option (InOut × Option (List CStr))
deriving DecidableEq

/-- `struct fsm_policy`, without its table and the indices of its neighbours. -/
structure Policy where
  idx : Nat
  ruleName : CStr
  rules : Rules
  redirects : Option (List CStr)
  next : Option (List (CStr × Int))
  otherConfig : Option (List (CStr × CStr))
  action : Action
  reportType : Report
deriving DecidableEq

/-! ## The rules -/

/-- `schema2str_set`, `schema2int_set`. -/
def toSet {β : Type} (l : List β) : Option (List β) := if l = [] then none else some l

/-- `schema2tree`, with the size of a key. -/
def toTree {β : Type} (l : List (CStr × β)) : Option (List (CStr × β)) :=
  if l = [] then none else some (l.foldl (Ordered.insert Prod.fst strcmp) [])

/-- `PJS_OVS_MAP_KEYSZ`. -/
def mapKeysz : Nat := 64

/-- The keys of a map as a record has them: each is followed by zeros. -/
def keyBytes (keys : List CStr) : List UInt8 :=
  keys.flatMap fun key => key.1 ++ List.replicate (mapKeysz - key.1.length) 0

/-- `schema2itree`. -/
def toItree (elemSize : Nat) (l : List (CStr × Int)) : Option (List (CStr × Int)) :=
  toTree (l.zipIdx.map fun p =>
    (cstrOf ((keyBytes (l.map Prod.fst)).drop (elemSize * p.2)), p.1.2))

def inOut (op : CStr) : Option InOut :=
  if op.1 = lit "out" then some .out
  else if op.1 = lit "in" then some .in
  else none

def fqdnOp (op : CStr) : Option Fsm.FqdnOp :=
  if op.1 = lit "in" then some .in
  else if op.1 = lit "out" then some .out
  else if op.1 = lit "sfr_in" then some .sfrIn
  else if op.1 = lit "sfr_out" then some .sfrOut
  else if op.1 = lit "sfl_in" then some .sflIn
  else if op.1 = lit "sfl_out" then some .sflOut
  else if op.1 = lit "wild_in" then some .wildIn
  else if op.1 = lit "wild_out" then some .wildOut
  else none

def riskOp (op : CStr) : Option RiskOp :=
  if op.1 = lit "eq" then some .eq
  else if op.1 = lit "neq" then some .neq
  else if op.1 = lit "gt" then some .gt
  else if op.1 = lit "lt" then some .lt
  else if op.1 = lit "gte" then some .gte
  else if op.1 = lit "lte" then some .lte
  else none

/-- A rule with an operator and values: absent without an operator, and failed for an operator
that is not known. -/
def setRule {ω β : Type} (parse : CStr → Option ω) (op : Option CStr) (values : β) :
    Option (Option (ω × β)) :=
  match op with
  | none => some none
  | some op => (parse op).map fun op => some (op, values)

section

variable (row : Row)

def setMacRules := setRule inOut row.macOp (toSet row.macs)

def setFqdnRules := setRule fqdnOp row.fqdnOp (toSet row.fqdns)

def setCatsRules := setRule inOut row.fqdncatOp (toSet row.fqdncats)

def setRiskLevelRules := setRule riskOp row.riskOp row.riskLevel

def setIpRules := setRule inOut row.ipaddrOp (toSet row.ipaddrs)

def setAppRules := setRule inOut row.appOp (toSet row.apps)

def setRules : Option Rules := do
  let mac ← setMacRules row
  let fqdn ← setFqdnRules row
  let cat ← setCatsRules row
  let risk ← setRiskLevelRules row
  let ip ← setIpRules row
  let app ← setAppRules row
  some { mac, fqdn, cat, risk, ip, app }

/-! ## The policy -/

def setAction : Action :=
  match row.action with
  | none => .none
  | some action =>
    if action.1 = lit "allow" then .allow
    else if action.1 = lit "drop" then .block
    else if action.1 = lit "update_tag" then .updateTag
    else if action.1 = lit "gatekeeper" then .gatekeeperReq
    else if action.1 = lit "flush" then .flushCache
    else if action.1 = lit "flush_all" then .flushAllCache
    else .none

def setLog : Report :=
  match row.log with
  | none => .none
  | some log =>
    if log.1 = lit "none" then .none
    else if log.1 = lit "all" then .all
    else if log.1 = lit "blocked" then .blocked
    else .none

/-- `fsm_policy_is_flush_request`. -/
def Row.isFlushRequest : Bool :=
  match row.action with
  | none => false
  | some action => action.1 = lit "flush" ∨ action.1 = lit "flush_all"

/-- The conversion of `next`, with `sizeof(int)` for the size of a key. -/
def Row.nextTree : Option (List (CStr × Int)) := toItree 4 row.next

/-- What `fsm_policy_insert_schema_p` makes of a row. -/
def Row.translate : Option Policy :=
  (setRules row).map fun rules =>
    { idx := row.idx.toNat
      ruleName := row.name
      rules := rules
      redirects := toSet row.redirect
      next := row.nextTree
      otherConfig := toTree row.otherConfig
      action := setAction row
      reportType := setLog row }

/-- `fsm_prepare_policy`: the categories are sorted. -/
def Policy.prepare (p : Policy) : Policy :=
  match p.rules.cat with
  | some (op, some cats) =>
    { p with rules := { p.rules with cat := some (op, some (cats.mergeSort (· ≤ ·))) } }
  | _ => p

/-- The table that a policy goes on to: the smallest key of `next`. -/
def Row.nextTable : Option CStr := row.nextTree.bind fun t => t.head?.map Prod.fst

def Row.table : CStr := row.policy.getD ⟨lit "default", by decide⟩

end

end OpenSync.FsmPolicy
