import OpenSync.Fsm.PolicyRow

/-!
# The policy tables

The policies are in tables by their `policy` column, each with an array of policies by their
index.  Tables are named by numbers here, in the order of their creation, and are never
deleted.  An access outside of `lookup_array` and the release of a number as if it were a pointer
are the result `none`.
-/

namespace OpenSync.FsmPolicy

open OpenSync.Lib OpenSync.Ds Function

/-- `FSM_MAX_POLICIES`. -/
def maxPolicies : Nat := 60

/-- `POLICY_NAME_SIZE`. -/
def policyNameSize : Nat := 32

/-- A policy in a table, with the table that it points to. -/
structure Entry where
  policy : Policy
  table : Nat
  lookupPrev : Nat
  lookupNext : Nat

/-- `struct policy_table`. -/
structure Table where
  name : CStr
  lookupArray : Nat → Option Entry

/-- The policy session: the tables, and the tree of them by name. -/
structure Mgr where
  count : Nat
  table : Nat → Table
  policyTables : List Nat

def Mgr.init : Mgr where
  count := 0
  table _ := ⟨⟨[], by simp⟩, fun _ => none⟩
  policyTables := []

def tableNameCmp (a b : CStr) : Int := strncmpBytes a.1 b.1 policyNameSize

/-- The element of `lookup_array` at an index. -/
def Table.at (t : Table) (idx : Int) : Option (Option Entry) :=
  if 0 ≤ idx ∧ idx < maxPolicies then some (t.lookupArray idx.toNat) else none

def Table.set (t : Table) (idx : Nat) (e : Option Entry) : Table :=
  { t with lookupArray := update t.lookupArray idx e }

namespace Mgr

section

variable (m : Mgr) (name : CStr)

/-- `ds_tree_find` in `policy_tables`. -/
def find : Option Nat :=
  Ordered.find (fun i => (m.table i).name) tableNameCmp m.policyTables name

def newTable : Mgr :=
  let table := update m.table m.count ⟨strscpy name policyNameSize, fun _ => none⟩
  { count := m.count + 1
    table := table
    policyTables :=
      Ordered.insert (fun i => (table i).name) tableNameCmp m.policyTables m.count }

/-- The table of a name, created if it is not there. -/
def getTable : Nat × Mgr :=
  match m.find name with
  | some i => (i, m)
  | none => (m.count, m.newTable name)

end

def setSlot (m : Mgr) (i idx : Nat) (e : Option Entry) : Mgr :=
  { m with table := update m.table i ((m.table i).set idx e) }

end Mgr

/-! ## Insertion -/

/-- The loop of `fsm_policy_get_prev`. -/
def prevFrom (lookup : Nat → Option Entry) : Nat → Option Nat
  | 0 => some 0
  | i + 1 =>
    if maxPolicies ≤ i + 1 then none
    else if (lookup (i + 1)).isSome then prevFrom lookup i
    else some (i + 1)

/-- `fsm_policy_get_prev`. -/
def getPrev (lookup : Nat → Option Entry) (idx : Nat) : Option Nat :=
  prevFrom lookup (toSize ((idx : Int) - 1))

/-- The loop of `fsm_policy_get_next`, with the number of policies that are left. -/
def nextFrom (lookup : Nat → Option Entry) : Nat → Nat → Nat
  | 0, idx => idx
  | k + 1, idx => if (lookup idx).isSome then nextFrom lookup k (idx + 1) else idx

/-- `fsm_policy_get_next`.  It sets `lookup_prev` too. -/
def getNext (lookup : Nat → Option Entry) (idx : Nat) : Nat :=
  nextFrom lookup (maxPolicies - (idx + 1)) (idx + 1)

namespace Mgr

section

variable (m : Mgr) (row : Row)

/-- `fsm_policy_set_next`, as far as it concerns the tables. -/
def setNext : Mgr :=
  match row.nextTable with
  | none => m
  | some key => (m.getTable key).2

/-- A translated policy goes to its place in the table. -/
def place (m : Mgr) (i : Nat) (p : Policy) : Option Mgr := do
  let m := m.setSlot i p.idx (some ⟨p, i, 0, 0⟩)
  let _ ← getPrev (m.table i).lookupArray p.idx
  let prev := getNext (m.table i).lookupArray p.idx
  some (m.setSlot i p.idx (some ⟨p, i, prev, maxPolicies⟩))

/-- `free_str_tree` of a tree from `schema2itree`: each value is given to `FREE`, which leaves out
`NULL` only. -/
def freeStrTree (tree : Option (List (CStr × Int))) : Option Unit :=
  if ∀ p ∈ tree.getD [], p.2 = 0 then some () else none

/-- `fsm_policy_insert_schema_p`. -/
def insertSchemaP (m : Mgr) (i : Nat) (row : Row) : Option Mgr :=
  match row.translate with
  | none => (freeStrTree row.nextTree).map fun _ => m.setNext row
  | some p => (m.setNext row).place i p

/-- `fsm_prepare_policy` for the policy in a place, if there is one. -/
def prepare (m : Mgr) (i idx : Nat) : Mgr :=
  m.setSlot i idx (((m.table i).lookupArray idx).map fun e => { e with policy := e.policy.prepare })

/-- `fsm_policy_get`, and the preparation of the policy by its caller. -/
def policyGet : Option Mgr := do
  let (i, m) := m.getTable row.table
  let slot ← (m.table i).at row.idx
  let m ← if slot.isSome then some m else m.insertSchemaP i row
  some (m.prepare i row.idx.toNat)

/-- `fsm_add_policy`. -/
def addPolicy : Option Mgr :=
  if row.idx < 0 ∨ maxPolicies ≤ row.idx then some m
  else if row.isFlushRequest then some m
  else m.policyGet row

/-! ## Deletion -/

/-- `fsm_policy_lookup`. -/
def policyLookup : Option (Option Entry) :=
  match m.find row.table with
  | none => some none
  | some i => (m.table i).at row.idx

/-- `fsm_free_policy`. -/
def freePolicy (m : Mgr) (e : Entry) : Option Mgr := do
  let _ ← (m.table e.table).at e.policy.idx
  some (m.setSlot e.table e.policy.idx none)

/-- `fsm_delete_policy`. -/
def deletePolicy : Option Mgr := do
  match ← m.policyLookup row with
  | none => some m
  | some e => m.freePolicy e

/-- `fsm_update_policy`. -/
def updatePolicy : Option Mgr :=
  if row.idx < 0 ∨ maxPolicies ≤ row.idx then some m
  else do
    let m ← m.deletePolicy row
    m.addPolicy row

end

end Mgr

/-- The changes of a row that `callback_FSM_Policy` is called for. -/
inductive Event where
  | new (row : Row)
  | modify (old new : Row)
  | del (row : Row)

/-- `callback_FSM_Policy`. -/
def Mgr.callback (m : Mgr) : Event → Option Mgr
  | .new row => m.addPolicy row
  | .modify _ new => m.updatePolicy new
  | .del row => m.deletePolicy row

end OpenSync.FsmPolicy
