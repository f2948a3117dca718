import OpenSync.Osbus.Msg

/-!
# Runs of operations on messages

The state is the forest of all messages that a program holds.  An operation works on a node of one
of them.  `osbus_msg_set_prop`, `osbus_msg_add_item` and `osbus_msg_assign` take over another whole
message, and the node must not be in it.

`DocState` has ordered maps for objects and lists for arrays.  `run_documents_iff` says in which
runs the messages stay in step with it.
-/

namespace OpenSync.Osbus

open OpenSync.Lib List Option Forest

/-- An operation on a node. -/
inductive Edit where
  | setProp (data : Nat) (name : Option CStr) (e : Nat)
  | addItem (data e : Nat)
  | arrayResize (msg : Nat) (num : Int)
  | setType (msg : Nat) (type : MsgType)
  | assign (dest : Nat) (src : Option Nat)

inductive Op where
  /-- `osbus_msg_new_type`, or a constructor with a value. -/
  | create (val : Val)
  | edit (ed : Edit)

/-- The message that the operation takes over. -/
def Edit.source : Edit → Option Nat
  | .setProp _ _ e | .addItem _ e => some e
  | .assign _ src => src
  | .arrayResize _ _ | .setType _ _ => none

def Edit.target : Edit → Nat
  | .setProp d _ _ | .addItem d _ | .arrayResize d _ | .setType d _ | .assign d _ => d

/-- The number of identities that the operation may use for new nodes. -/
def Edit.allocs : Edit → Nat
  | .arrayResize _ num => num.toNat
  | _ => 0

/-- What the operation does with its node. -/
def Edit.act (fresh : Nat) : Edit → Option Msg → Msg → Option Msg
  | .setProp _ name _, some e, d => Osbus.setProp d name e
  | .addItem _ _, some e, d => Osbus.addItem d e
  | .arrayResize _ num, _, d => Osbus.arrayResize d num fresh
  | .setType _ type, _, d => some (Osbus.setType d type)
  | .assign _ _, src, d => some (Osbus.assign d src)
  | _, none, _ => none

/-- What the operation should do with the document of its node. -/
def Edit.actDoc (fresh : Nat) : Edit → Option Doc → Doc → Option Doc
  | .setProp _ name _, some e, d => some (d.setProp name e)
  | .addItem _ _, some e, d => some (d.addItem e)
  | .arrayResize _ num, _, d => some (d.arrayResize num fresh)
  | .setType _ type, _, d => some (d.setType type)
  | .assign _ _, src, d => some (d.assign src)
  | _, none, _ => none

/-- The tree that is taken over, if any, and the rest. -/
def give {α : Type} (id : α → Nat) (f : Forest α) : Option Nat →
    Option (Option (α × Forest α) × Forest α)
  | none => some (none, f)
  | some e => (f.takeTree id e).map fun r => (some r.1, r.2)

structure State where
  forest : Forest Node
  next : Nat

structure DocState where
  forest : Forest Item
  next : Nat

def State.init : State := { forest := .nil, next := 0 }

section

variable (s : State)

def step : Op → Option State
  | .create val =>
    some { forest := .ofTrees (s.forest.trees ++ [newMsg s.next val]), next := s.next + 1 }
  | .edit ed => (give Node.id s.forest ed.source).bind fun r =>
    (r.2.edit Node.id ed.target (ed.act s.next r.1)).map fun forest =>
      { forest := forest, next := s.next + ed.allocs }

def stepDoc (s : DocState) : Op → Option DocState
  | .create val =>
    some { forest := .ofTrees (s.forest.trees ++ [(⟨s.next, none, val⟩, .nil)]),
           next := s.next + 1 }
  | .edit ed => (give Item.id s.forest ed.source).bind fun r =>
    (r.2.edit Item.id ed.target (ed.actDoc s.next r.1)).map fun forest =>
      { forest := forest, next := s.next + ed.allocs }

/-- The documents of the messages. -/
def State.docs : DocState := { forest := s.forest.map Node.item, next := s.next }

/-- The operation takes over a whole message, and works on a node that is not in it.  Any other use
ends a run. -/
def Legal : Op → Prop
  | .create _ => True
  | .edit ed => ∃ e rest d, give Node.id s.forest ed.source = some (e, rest) ∧
      rest.find Node.id ed.target = some d

/-- The operation returns, the messages are the documents they should be, and every lookup in an
object gives the item with the name. -/
def Kept (op : Op) : Prop :=
  Legal s op → ∃ s', step s op = some s' ∧ stepDoc s.docs op = some s'.docs ∧ s'.forest.All Agree

/-- What keeps an operation in step: a property has a new name, an array is not resized below zero,
an object with items is not assigned, and a new item has room. -/
def FineAct : Edit → Option Msg → Msg → Prop
  | .setProp _ name _, _, d => FineProp d name
  | .addItem _ _, _, d => d.1.val = .array → d.items.length < intMax
  | .arrayResize _ num, _, d => d.1.val = .array → 0 ≤ num
  | .assign _ _, e, _ => ∀ src ∈ e, NoProps src
  | .setType _ _, _, _ => True

def Fine : Op → Prop
  | .create _ => True
  | .edit ed => ∀ e rest d, give Node.id s.forest ed.source = some (e, rest) →
      rest.find Node.id ed.target = some d → FineAct ed e d

end

/-! ## One operation -/

structure State.WF (s : State) : Prop where
  nodup : (ids s.forest).Nodup
  bound : ∀ i ∈ ids s.forest, i < s.next
  ok : s.forest.All NodeOk

variable {s s' : State} {ed : Edit} {e : Option Msg} {rest : Forest Node} {d d' : Msg}

/-- The identities of a tree that is taken over. -/
def sourceIds (e : Option Msg) : List Nat := e.elim [] Msg.ids

variable {src : Option Nat} {among : List Nat} {k : Nat} {op : Op}

section

variable (wf : s.WF) (h : give Node.id s.forest src = some (e, rest))

include wf h

theorem give_perm : (ids s.forest).Perm (ids rest ++ sourceIds e) := by
  cases src with
  | none =>
    cases h
    simp [sourceIds]
  | some k =>
    obtain ⟨⟨t, r⟩, ht, hr⟩ := map_eq_some_iff.mp h
    cases hr
    have perm := (vals_takeTree wf.nodup ht).map Node.id
    rw [map_append] at perm
    exact perm.trans perm_append_comm

theorem give_ok : (∀ m ∈ e, m.Ok) ∧ rest.All NodeOk := by
  cases src with
  | none =>
    cases h
    exact ⟨by simp, wf.ok⟩
  | some k =>
    obtain ⟨⟨t, r⟩, ht, hr⟩ := map_eq_some_iff.mp h
    cases hr
    have all := wf.ok.takeTree ht
    refine ⟨?_, all.2⟩
    intro m hm
    cases hm
    exact ⟨all.1.1, all.1.2⟩

end

theorem item_id (n : Node) : n.item.id = n.id := rfl

theorem give_docs (s : State) (src : Option Nat) : give Item.id s.docs.forest src =
    (give Node.id s.forest src).map fun r => (r.1.map Msg.doc, r.2.map Node.item) := by
  cases src with
  | none => rfl
  | some k =>
    have hmap : (s.forest.map Node.item).takeTree Item.id k =
        (s.forest.takeTree Node.id k).map fun r => (Msg.doc r.1, r.2.map Node.item) :=
      takeTree_map item_id
    rw [give, give, State.docs, hmap, Option.map_map, Option.map_map]
    rfl

section

variable
  (hgive : give Node.id s.forest ed.source = some (e, rest))
  (hfind : rest.find Node.id ed.target = some d)

include hgive hfind

theorem step_edit : step s (.edit ed) = (ed.act s.next e d).map fun d' =>
      { forest := rest.put Node.id ed.target d', next := s.next + ed.allocs } := by
  simp [step, hgive, edit, hfind, Function.comp_def]

theorem stepDoc_edit :
    stepDoc s.docs (.edit ed) = (ed.actDoc s.next (e.map Msg.doc) d.doc).map fun doc =>
      { forest := (rest.map Node.item).put Item.id ed.target doc,
        next := s.next + ed.allocs } := by
  have hmap : (rest.map Node.item).find Item.id ed.target =
      (rest.find Node.id ed.target).map Msg.doc := find_map item_id
  have hgive' := give_docs s ed.source
  rw [hfind, map_some] at hmap
  rw [hgive, map_some] at hgive'
  simp only [stepDoc, hgive', Option.bind_some, edit, hmap, Option.map_map]
  rfl

end

theorem nodup_put (nodup : (ids rest ++ among).Nodup) (hfind : rest.find Node.id k = some d)
    (label : d'.1.label = d.1.label) (sub : (ids d'.2).Subperm (ids d.2 ++ among)) :
    (ids (rest.put Node.id k d')).Subperm (ids rest ++ among) := by
  obtain ⟨u, v, before, after⟩ := put_split (nodup_append.mp nodup).1 hfind
  have hid : d'.1.id = d.1.id := congrArg Prod.fst label
  have hbefore : ids rest = u.map Node.id ++ (d.1.id :: ids d.2) ++ v.map Node.id := by
    simp [ids, before]
  have hafter : ids (rest.put Node.id k d') =
      u.map Node.id ++ (d.1.id :: ids d'.2) ++ v.map Node.id := by
    simp [ids, after, hid]
  rw [hbefore, hafter]
  have hmiddle : (u.map Node.id ++ (d.1.id :: ids d'.2) ++ v.map Node.id).Subperm
      (u.map Node.id ++ (d.1.id :: (ids d.2 ++ among)) ++ v.map Node.id) := by
    rw [subperm_append_right, subperm_append_left, subperm_cons]
    exact sub
  refine hmiddle.trans (List.Perm.subperm ?_)
  simp only [append_assoc, cons_append]
  refine List.Perm.append_left _ (.cons _ (List.Perm.append_left _ ?_))
  exact perm_append_comm

/-- The outcome of an operation in step: the changed node, with identities below it that are old, of
the message taken over, or new. -/
theorem act_refines (hd : d.Ok) (he : ∀ m ∈ e, m.Ok) (hsource : ed.source.isSome → e.isSome)
    (fine : FineAct ed e d) :
    ∃ d' doc, ed.act s.next e d = some d' ∧ ed.actDoc s.next (e.map Msg.doc) d.doc = some doc ∧
      Refines d' d doc (ids d.2 ++ (sourceIds e ++ range' s.next ed.allocs)) := by
  have widen : ∀ {d' doc among}, Refines d' d doc among →
      among.Subperm (ids d.2 ++ (sourceIds e ++ range' s.next ed.allocs)) →
      Refines d' d doc (ids d.2 ++ (sourceIds e ++ range' s.next ed.allocs)) :=
    fun r sub => { r with ids := r.ids.trans sub }
  have source : (ids d.2 ++ sourceIds e).Subperm
      (ids d.2 ++ (sourceIds e ++ range' s.next ed.allocs)) := by
    rw [← append_assoc]
    exact (sublist_append_left _ _).subperm
  cases ed with
  | setProp data name src =>
    obtain ⟨m, rfl⟩ := isSome_iff_exists.mp (hsource rfl)
    obtain ⟨d', hact, r⟩ := setProp_refines hd (he m rfl) fine
    exact ⟨d', _, hact, rfl, widen r source⟩
  | addItem data src =>
    obtain ⟨m, rfl⟩ := isSome_iff_exists.mp (hsource rfl)
    obtain ⟨d', hact, r⟩ := addItem_refines hd (he m rfl) fine
    exact ⟨d', _, hact, rfl, widen r source⟩
  | arrayResize msg num =>
    obtain ⟨d', hact, r⟩ := arrayResize_refines hd fine
    refine ⟨d', _, hact, rfl, widen r ?_⟩
    rw [subperm_append_left]
    exact (sublist_append_right _ _).subperm
  | setType msg type =>
    exact ⟨_, _, rfl, rfl, widen (setType_refines hd type) (nil_sublist _).subperm⟩
  | assign dest src =>
    refine ⟨_, _, rfl, rfl, widen (assign_refines hd fun m hm => ⟨he m hm, fine m hm⟩) ?_⟩
    refine List.Subperm.trans ?_ source
    cases e with
    | none => exact (nil_sublist _).subperm
    | some m =>
      have sub : (ids m.2).Sublist (Msg.ids m) := sublist_cons_self _ _
      exact (sub.trans (sublist_append_right _ _)).subperm

theorem isSome_of_give (h : give Node.id s.forest src = some (e, rest)) (hsrc : src.isSome) :
    e.isSome := by
  cases src with
  | none => cases hsrc
  | some k =>
    obtain ⟨r, -, hr⟩ := map_eq_some_iff.mp h
    cases hr
    rfl

/-- No identity is used twice, also with the new ones. -/
theorem State.WF.nodup_fresh (wf : s.WF) (h : give Node.id s.forest src = some (e, rest))
    (count : Nat) :
    (ids rest ++ (sourceIds e ++ range' s.next count)).Nodup ∧
      ∀ i ∈ ids rest ++ (sourceIds e ++ range' s.next count), i < s.next + count := by
  have perm := give_perm wf h
  rw [← append_assoc]
  have old : ∀ i ∈ ids rest ++ sourceIds e, i < s.next := fun i hi =>
    wf.bound i (perm.mem_iff.mpr hi)
  constructor
  · rw [nodup_append]
    refine ⟨perm.nodup_iff.mp wf.nodup, nodup_range', ?_⟩
    rintro i hi j hj rfl
    have hlow := (mem_range'_1.mp hj).1
    exact absurd (old i hi) (by omega)
  · intro i hi
    rcases mem_append.mp hi with hi | hi
    · exact Nat.lt_of_lt_of_le (old i hi) (Nat.le_add_right _ _)
    · exact (mem_range'_1.mp hi).2

theorem label_of_find (nodup : (ids rest).Nodup) (hfind : rest.find Node.id k = some d) {a : Node}
    (ha : a ∈ rest.vals) (hk : a.id = k) : a = d.1 := by
  obtain ⟨u, v, before, -⟩ := put_split nodup hfind
  have hd : d.1 ∈ rest.vals := by simp [before]
  have hid := key_of_find hfind
  exact inj_on_of_nodup_map nodup ha hd (hk.trans hid.symm)

theorem put_wf {doc : Doc} {next : Nat} (hall : rest.All NodeOk)
    (nodup : (ids rest ++ among).Nodup) (bound : ∀ i ∈ ids rest ++ among, i < next)
    (hfind : rest.find Node.id k = some d) (r : Refines d' d doc (ids d.2 ++ among)) :
    State.WF { forest := rest.put Node.id k d', next := next } := by
  have sub := nodup_put nodup hfind r.label r.ids
  constructor
  · obtain ⟨l, perm, hsub⟩ := sub
    exact perm.nodup_iff.mp (nodup.sublist hsub)
  · intro i hi
    exact bound i (sub.subset hi)
  · refine hall.put (fun _ _ _ h ok => ok.congr h) ?_ ⟨r.ok, r.below⟩
    intro a ha hk
    rw [label_of_find (nodup_append.mp nodup).1 hfind ha hk, r.label]

theorem step_fine (wf : s.WF) (legal : Legal s op) (fine : Fine s op) :
    ∃ s', step s op = some s' ∧ stepDoc s.docs op = some s'.docs ∧ s'.WF := by
  cases op with
  | create val =>
    refine ⟨_, rfl, ?_, ?_, ?_, ?_⟩
    · simp [stepDoc, State.docs, Forest.map_ofTrees, Forest.trees_map, Forest.mapTree, newMsg,
        Node.item, Forest.map]
    · rw [ids_ofTrees, flatMap_append, ← ids_eq, nodup_append]
      refine ⟨wf.nodup, by simp [newMsg, Msg.ids, ids, vals], ?_⟩
      intro i hi j hj hij
      have hj : j = s.next := by simpa [newMsg, Msg.ids, ids, vals] using hj
      exact absurd (wf.bound i hi) (by omega)
    · intro i hi
      rw [ids_ofTrees, flatMap_append, ← ids_eq] at hi
      rcases mem_append.mp hi with hi | hi
      · exact Nat.lt_succ_of_lt (wf.bound i hi)
      · have hi : i = s.next := by simpa [newMsg, Msg.ids, ids, vals] using hi
        exact hi ▸ Nat.lt_succ_self _
    · rw [all_ofTrees]
      intro t ht
      rcases mem_append.mp ht with ht | ht
      · exact all_iff.mp wf.ok t ht
      · rw [mem_singleton.mp ht]
        exact ⟨(newMsg_ok _ _).top, (newMsg_ok _ _).below⟩
  | edit ed =>
    obtain ⟨e, rest, d, hgive, hfind⟩ := legal
    obtain ⟨he, hrest⟩ := give_ok wf hgive
    have hd : Msg.Ok d := ⟨(hrest.of_find hfind).1, (hrest.of_find hfind).2⟩
    obtain ⟨d', doc, hact, hdoc, r⟩ := act_refines (s := s) hd he (isSome_of_give hgive)
      (fine e rest d hgive hfind)
    obtain ⟨nodup, bound⟩ := wf.nodup_fresh hgive ed.allocs
    refine ⟨_, by rw [step_edit hgive hfind, hact]; rfl, ?_, put_wf hrest nodup bound hfind r⟩
    have hmap : (rest.put Node.id ed.target d').map Node.item =
        (rest.map Node.item).put Item.id ed.target d'.doc := map_put item_id
    rw [stepDoc_edit hgive hfind, hdoc, State.docs, hmap, r.doc]
    rfl

/-- Out of step, an operation does not return or a lookup is wrong. -/
theorem fineAct_of_agree (hd : d.Ok) (he : ∀ m ∈ e, m.Ok) (hsource : ed.source.isSome → e.isSome)
    (hids : (d.2.heads.map Node.id).Nodup)
    (hdisj : ∀ m ∈ e, m.1.id ∉ d.2.heads.map Node.id) (hact : ed.act s.next e d = some d')
    (agree : Agree d'.1 d'.2) : FineAct ed e d := by
  cases ed with
  | setProp data name src =>
    obtain ⟨m, rfl⟩ := isSome_iff_exists.mp (hsource rfl)
    have fresh : d.1.val = .object → ∀ n, name = some n → some n ∉ d.2.heads.map Node.name := by
      rintro hval n rfl present
      exact not_agree_overwrite hd hval present hids (hdisj m rfl) hact agree
    refine ⟨fresh, ?_, ?_⟩
    · intro hval hname
      obtain ⟨n, rfl⟩ := isSome_iff_exists.mp hname
      by_contra full
      have hget : getProp d.1 n = none := by
        rw [hd.top.agree hval, findKey_eq_none_iff.mpr (fresh hval n rfl)]
        rfl
      have hnone : setProp d (some n) m = none := by
        simp [setProp, hval, hget, appendItem, full]
      exact absurd (hnone.symm.trans hact) (by simp)
    · rintro hval rfl
      by_contra full
      have hnone : setProp d none m = none := by
        simp [setProp, hval, addItem, appendItem, full]
      exact absurd (hnone.symm.trans hact) (by simp)
  | addItem data src =>
    obtain ⟨m, rfl⟩ := isSome_iff_exists.mp (hsource rfl)
    intro hval
    by_contra full
    have hnone : addItem d m = none := by
      simp [addItem, hval, appendItem, full]
    exact absurd (hnone.symm.trans hact) (by simp)
  | arrayResize msg num =>
    intro hval
    by_contra neg
    have hnone : arrayResize d num s.next = none := by
      rw [arrayResize, if_neg (not_not.mpr hval), if_neg (by omega), if_neg (by omega),
        if_pos (by omega)]
    exact absurd (hnone.symm.trans hact) (by simp)
  | setType msg type => trivial
  | assign dest src =>
    intro m hm hval
    obtain rfl : e = some m := hm
    cases hact
    by_contra hne
    exact not_agree_assign hd (he m rfl) hval hne agree

theorem heads_sublist (f : Forest Node) : (f.heads.map Node.id).Sublist (ids f) := by
  induction f with
  | nil => exact List.Sublist.slnil
  | cons a below next _ ihn =>
    simp only [map_cons, ids, vals, map_append]
      at ihn ⊢
    exact (ihn.trans (sublist_append_right _ _)).cons_cons _

theorem kept_iff_fine (wf : s.WF) (op : Op) : Kept s op ↔ Fine s op := by
  constructor
  · intro kept
    cases op with
    | create val => trivial
    | edit ed =>
      intro e rest d hgive hfind
      obtain ⟨s', hstep, -, agree⟩ := kept ⟨e, rest, d, hgive, hfind⟩
      rw [step_edit hgive hfind] at hstep
      obtain ⟨d', hact, rfl⟩ := map_eq_some_iff.mp hstep
      obtain ⟨he, hrest⟩ := give_ok wf hgive
      have nodup := (give_perm wf hgive).nodup_iff.mp wf.nodup
      obtain ⟨hnodup, -, hdisj⟩ := nodup_append.mp nodup
      -- the children of the node are nodes of the forest
      obtain ⟨u, v, before, -⟩ := put_split hnodup hfind
      have sub : (d.2.heads.map Node.id).Sublist (ids rest) := by
        refine (heads_sublist d.2).trans ?_
        rw [ids, ids, before, map_append, map_append]
        refine .trans ?_ (sublist_append_left _ _)
        refine .trans ?_ (sublist_append_right _ _)
        exact sublist_cons_self _ _
      refine fineAct_of_agree ⟨(hrest.of_find hfind).1, (hrest.of_find hfind).2⟩ he
        (isSome_of_give hgive) (hnodup.sublist sub) ?_ hact (Forest.All.of_put hfind agree)
      rintro m hm hmem
      obtain rfl : e = some m := hm
      exact hdisj m.1.id (sub.subset hmem) m.1.id mem_cons_self rfl
  · intro fine legal
    obtain ⟨s', hstep, hdoc, wf'⟩ := step_fine wf legal fine
    exact ⟨s', hstep, hdoc, wf'.ok.mono fun _ _ ok => ok.agree⟩

/-! ## Runs -/

/-- `P` holds of every operation of a run, in the state that the operation finds. -/
def Always (P : State → Op → Prop) : State → List Op → Prop
  | _, [] => True
  | s, op :: ops => P s op ∧ ∀ s', step s op = some s' → Always P s' ops

theorem State.init_wf : State.init.WF :=
  ⟨nodup_nil, fun _ h => absurd h not_mem_nil, trivial⟩

/-- An operation that does something was legal. -/
theorem legal_of_step (h : step s op = some s') : Legal s op := by
  cases op with
  | create val => trivial
  | edit ed =>
    obtain ⟨⟨e, rest⟩, hgive, h⟩ := bind_eq_some_iff.mp h
    obtain ⟨forest, hedit, -⟩ := map_eq_some_iff.mp h
    obtain ⟨d, hfind, -⟩ := bind_eq_some_iff.mp hedit
    exact ⟨e, rest, d, hgive, hfind⟩

theorem always_kept_iff (wf : s.WF) (ops : List Op) : Always Kept s ops ↔ Always Fine s ops := by
  induction ops generalizing s with
  | nil => exact .rfl
  | cons op ops ih =>
    have next : Fine s op → ∀ s', step s op = some s' → s'.WF := by
      intro fine s' hstep
      obtain ⟨s'', hstep', -, wf'⟩ := step_fine wf (legal_of_step hstep) fine
      rw [hstep] at hstep'
      cases hstep'
      exact wf'
    rw [Always, kept_iff_fine wf op]
    refine and_congr_right fun fine => ?_
    exact forall_congr' fun s' => forall_congr' fun hstep => ih (next fine s' hstep)

/-- In every run of operations, the messages are the documents of ordered maps and lists after
every operation, and lookups find the items, exactly when every operation is `Fine`. -/
theorem run_documents_iff (ops : List Op) :
    Always Kept State.init ops ↔ Always Fine State.init ops :=
  always_kept_iff State.init_wf ops

/-! ## A property that is set twice, and an object that is assigned -/

def run (s : State) : List Op → Option State
  | [] => some s
  | op :: ops => (step s op).bind fun s => run s ops

theorem Always.last {P : State → Op → Prop} {ops : List Op} (h : Always P s (ops ++ [op]))
    (hrun : run s ops = some s') : P s' op := by
  induction ops generalizing s with
  | nil =>
    cases hrun
    exact h.1
  | cons o ops ih =>
    obtain ⟨s1, hstep, hrun⟩ := bind_eq_some_iff.mp hrun
    exact ih (h.2 s1 hstep) hrun

/-- The name `a`. -/
def nameA : CStr := cstrOf [97]

/-- An object with the number 1 under the name. -/
def buildA : List Op :=
  [.create .object, .create (.int 1), .edit (.setProp 0 (some nameA) 1)]

/-- The lookup in the node, and the identities of the nodes that are left. -/
def lookupIn (s : State) (node : Nat) : Option (Option Nat × List Nat) :=
  (s.forest.find Node.id node).map fun d => (getProp d.1 nameA, ids s.forest)

/-- The name set again for the number 2. -/
def setAgain : List Op := (buildA ++ [.create (.int 2)]) ++ [.edit (.setProp 0 (some nameA) 2)]

/-- The object assigned to another node. -/
def assignObject : List Op := (buildA ++ [.create .null]) ++ [.edit (.assign 2 (some 0))]

/-- After the name has been set again the lookup gives the node 1, which has been freed.  After
the assignment the lookup gives nothing. -/
theorem lookups_lost :
    (run State.init setAgain).bind (lookupIn · 0) = some (some 1, [0, 2]) ∧
      (run State.init assignObject).bind (lookupIn · 2) = some (none, [2, 1]) ∧
      ¬Always Kept State.init setAgain ∧ ¬Always Kept State.init assignObject := by
  refine ⟨by decide, by decide, ?_, ?_⟩
  · intro always
    have kept := Always.last always rfl
    obtain ⟨s', hstep, -, agree⟩ := kept (legal_of_step rfl)
    cases hstep
    exact absurd (agree.1 rfl nameA) (by decide)
  · intro always
    have kept := Always.last always rfl
    obtain ⟨s', hstep, -, agree⟩ := kept (legal_of_step rfl)
    cases hstep
    exact absurd (agree.1 rfl nameA) (by decide)

end OpenSync.Osbus
