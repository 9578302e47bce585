import CWebServer.Lib.Links
import CWebServer.Lib.Runs

/-!
# The macros of doubly linked lists

`dll_pushBack`, `dll_pushFront` and `dll_remove` on nodes with the fields `next`
and `prev`. The front push swaps the fields of the back push, but not the ends,
and works on the empty list only.
-/

namespace CWebServer

inductive DllField
  | next | prev
  deriving DecidableEq, Repr

variable {α : Type}

/-- The fields of all nodes and the two variables; `none` is 0. -/
structure Dll (α : Type) where
  node : DllField → α → Option α
  f : Option α
  l : Option α

def Dll.empty (node : DllField → α → Option α) : Dll α := { node, f := none, l := none }

/-- The list from `f` to `l` is well formed and has these nodes. -/
def IsDll (s : Dll α) (xs : List α) : Prop := Links.Chain (s.node .next) (s.node .prev) s.f s.l xs

def Dll.Linked (s : Dll α) (xs : List α) : Prop := Links.Linked (s.node .next) (s.node .prev) s.f s.l xs

theorem isDll_iff {d : Dll α} {xs : List α} : IsDll d xs ↔ d.Linked xs := Links.chain_iff

variable [DecidableEq α]

/-- `n->field = value` -/
def setField (node : DllField → α → Option α) (field : DllField) (n : α) (value : Option α) :
    DllField → α → Option α :=
  Function.update node field (Function.update (node field) n value)

/-- The result is `none` where a `NULL` pointer is dereferenced. -/
def dllPushBackNp (s : Dll α) (n : α) (nextField prevField : DllField) : Option (Dll α) :=
  if s.f = none then
    let node := setField s.node prevField n none
    let node := setField node nextField n none
    some { node, f := some n, l := some n }
  else do
    let node := setField s.node prevField n s.l
    let l ← s.l
    let node := setField node nextField l (some n)
    let node := setField node nextField n none
    some { node, f := s.f, l := some n }

def dllRemoveNp (s : Dll α) (n : α) (nextField prevField : DllField) : Option (Dll α) :=
  if s.f = some n then do
    let f ← s.node nextField n
    some { node := setField s.node prevField f none, f := some f, l := s.l }
  else if s.l = some n then do
    let l ← s.node prevField n
    some { node := setField s.node nextField l none, f := s.f, l := some l }
  else do
    let behind ← s.node nextField n
    let node := setField s.node prevField behind (s.node prevField n)
    let before ← node prevField n
    let node := setField node nextField before (node nextField n)
    some { node, f := s.f, l := s.l }

def dllPushBack (s : Dll α) (n : α) : Option (Dll α) := dllPushBackNp s n .next .prev

def dllPushFront (s : Dll α) (n : α) : Option (Dll α) := dllPushBackNp s n .prev .next

def dllRemove (s : Dll α) (n : α) : Option (Dll α) := dllRemoveNp s n .next .prev

/-! ## Runs beside a plain list -/

inductive DllOp (α : Type)
  | pushBack (n : α)
  | pushFront (n : α)
  | remove (n : α)
  deriving DecidableEq, Repr

def dllStep (s : Dll α) : DllOp α → Option (Dll α)
  | .pushBack n => dllPushBack s n
  | .pushFront n => dllPushFront s n
  | .remove n => dllRemove s n

def plainStep (xs : List α) : DllOp α → List α
  | .pushBack n => xs ++ [n]
  | .pushFront n => n :: xs
  | .remove n => xs.erase n

/-- The macros, with `none` from the first fault on, beside the plain list. -/
def dllSteps (s : Option (Dll α) × List α) (op : DllOp α) : Option (Dll α) × List α :=
  (s.1.bind (dllStep · op), plainStep s.2 op)

def dllStart (node : DllField → α → Option α) : Option (Dll α) × List α := (some (.empty node), [])

/-- Pushed nodes are fresh and removed ones are in the list. -/
def ProperOp (xs : List α) : DllOp α → Prop
  | .pushBack n => n ∉ xs
  | .pushFront n => n ∉ xs
  | .remove n => n ∈ xs

/-- The front push finds the list empty, and a removed node is not the only one. -/
def FitsMacro (xs : List α) : DllOp α → Prop
  | .pushBack _ => True
  | .pushFront _ => xs = []
  | .remove n => xs ≠ [n]

/-- No `NULL` pointer has been dereferenced, and the list is that of the plain operations. -/
def KeepsDll (s : Option (Dll α) × List α) : Prop := ∃ d, s.1 = some d ∧ d.Linked s.2

/-! ## Fields -/

section
variable (node : DllField → α → Option α) (n : α) (value : Option α)

theorem setField_same (field : DllField) : setField node field n value field = Function.update (node field) n value :=
  Function.update_self _ _ _

theorem setField_other {field other : DllField} (h : other ≠ field) :
    setField node field n value other = node other := Function.update_of_ne h _ _

theorem setField_next_prev : setField node .next n value .prev = node .prev := setField_other node n value (by decide)

theorem setField_prev_next : setField node .prev n value .next = node .next := setField_other node n value (by decide)

end

/-! ## One step -/

variable {d : Dll α} {xs : List α} {n : α}

theorem push_empty (h : d.Linked []) (nextField prevField : DllField) :
    dllPushBackNp d n nextField prevField =
      some { node := setField (setField d.node prevField n none) nextField n none, f := some n, l := some n } := by
  have hf : d.f = none := h.first
  unfold dllPushBackNp
  rw [if_pos hf]

theorem keeps_pushBack (h : d.Linked xs) (hn : n ∉ xs) : ∃ d', dllPushBack d n = some d' ∧ d'.Linked (xs ++ [n]) := by
  unfold dllPushBack
  cases xs with
  | nil =>
    refine ⟨_, push_empty h _ _, ?_⟩
    unfold Dll.Linked
    dsimp only
    rw [setField_same, setField_prev_next, setField_next_prev, setField_same]
    exact .single _ _ n
  | cons x xs =>
    have hf : d.f ≠ none := by
      rw [h.first]
      exact Option.some_ne_none x
    obtain ⟨z, hz⟩ : ∃ z, d.l = some z := by
      rw [h.last, List.getLast?_cons]
      exact ⟨_, rfl⟩
    unfold dllPushBackNp
    rw [if_neg hf, hz]
    refine ⟨_, rfl, ?_⟩
    unfold Dll.Linked
    dsimp only
    rw [setField_same, setField_same, setField_prev_next, setField_next_prev, setField_next_prev, setField_same]
    exact Links.Linked.push h hn hz

theorem keeps_pushFront_iff (h : d.Linked xs) (hn : n ∉ xs) :
    (∃ d', dllPushFront d n = some d' ∧ d'.Linked (n :: xs)) ↔ xs = [] := by
  unfold dllPushFront
  constructor
  · rintro ⟨d', hpush, hlinked⟩
    by_contra hne
    obtain ⟨x, rest, rfl⟩ := List.exists_cons_of_ne_nil hne
    have hf : d.f ≠ none := by
      rw [h.first]
      exact Option.some_ne_none x
    unfold dllPushBackNp at hpush
    rw [if_neg hf, h.last, List.getLast?_cons] at hpush
    cases hpush
    -- the last node is one of the old ones, and `l` the new one
    have hl : some n = (n :: x :: rest).getLast? := hlinked.last
    rw [List.getLast?_cons_cons] at hl
    exact hn (List.mem_of_getLast? hl.symm)
  · rintro rfl
    refine ⟨_, push_empty h _ _, ?_⟩
    unfold Dll.Linked
    dsimp only
    rw [setField_same, setField_next_prev, setField_prev_next, setField_same]
    exact .single _ _ n

/-- Only the node that is first and last is taken for the first one of more. -/
theorem remove_only (h : d.Linked [n]) : dllRemove d n = none := by
  have hf : d.f = some n := h.first
  have hnext : d.node .next n = none := h.seg.2.1
  unfold dllRemove dllRemoveNp
  rw [if_pos hf, hnext]
  rfl

theorem keeps_remove_first {y : α} {ys : List α} (h : d.Linked (n :: y :: ys)) :
    ∃ d', dllRemove d n = some d' ∧ d'.Linked (y :: ys) := by
  have hf : d.f = some n := h.first
  have hnext : d.node .next n = some y := h.seg.2.1
  unfold dllRemove dllRemoveNp
  rw [if_pos hf, hnext]
  refine ⟨_, rfl, ?_⟩
  unfold Dll.Linked
  dsimp only
  rw [setField_same, setField_prev_next]
  exact Links.Linked.remove_first h

theorem keeps_remove_last {z : α} (h : d.Linked (xs ++ [n])) (hz : xs.getLast? = some z) :
    ∃ d', dllRemove d n = some d' ∧ d'.Linked xs := by
  have hf : d.f ≠ some n := by
    intro hf
    rw [h.first, List.head?_append_of_ne_nil xs (List.ne_nil_of_mem (List.mem_of_getLast? hz))] at hf
    exact (List.nodup_append.mp h.nodup).2.2 n (List.mem_of_mem_head? hf) n List.mem_cons_self rfl
  have hl : d.l = some n := by rw [h.last, List.getLast?_concat]
  have hprev : d.node .prev n = some z := by
    rw [(Links.seg_split.mp h.seg).2.1, hz]
    rfl
  unfold dllRemove dllRemoveNp
  rw [if_neg hf, if_pos hl, hprev]
  refine ⟨_, rfl, ?_⟩
  unfold Dll.Linked
  dsimp only
  rw [setField_same, setField_next_prev]
  exact Links.Linked.remove_last h hz

theorem keeps_remove_middle {a b : α} {ys : List α} (h : d.Linked (xs ++ n :: ys)) (ha : xs.getLast? = some a)
    (hb : ys.head? = some b) : ∃ d', dllRemove d n = some d' ∧ d'.Linked (xs ++ ys) := by
  obtain ⟨-, hprev, hnext, -⟩ := Links.seg_split.mp h.seg
  rw [ha] at hprev
  rw [hb] at hnext
  have hout := (List.nodup_cons.mp (List.nodup_middle.mp h.nodup)).1
  have hbn : b ≠ n := fun heq => hout (List.mem_append_right xs (heq ▸ List.mem_of_mem_head? hb))
  have hf : d.f ≠ some n := by
    intro hf
    rw [h.first, List.head?_append_of_ne_nil xs (List.ne_nil_of_mem (List.mem_of_getLast? ha))] at hf
    exact hout (List.mem_append_left ys (List.mem_of_mem_head? hf))
  have hl : d.l ≠ some n := by
    intro hl
    have hlast : (xs ++ n :: ys).getLast? = ys.getLast? := by
      rw [List.append_cons]
      exact List.getLast?_append_of_ne_nil _ (List.ne_nil_of_mem (List.mem_of_mem_head? hb))
    rw [h.last, hlast] at hl
    exact hout (List.mem_append_right xs (List.mem_of_getLast? hl))
  have hnode : (setField d.node .prev b (d.node .prev n)) .prev n = some a := by
    rw [setField_same, Function.update_of_ne hbn.symm, hprev]
    rfl
  unfold dllRemove dllRemoveNp
  rw [if_neg hf, if_neg hl, hnext]
  simp only [Option.or_none, Option.bind_eq_bind, Option.bind_some, hnode, setField_prev_next, hnext]
  refine ⟨_, rfl, ?_⟩
  unfold Dll.Linked
  dsimp only
  rw [setField_same, setField_prev_next, setField_next_prev, setField_same, hprev]
  exact Links.Linked.remove_middle h ha hb

theorem keeps_remove_iff (h : d.Linked xs) (hn : n ∈ xs) :
    (∃ d', dllRemove d n = some d' ∧ d'.Linked (xs.erase n)) ↔ xs ≠ [n] := by
  obtain ⟨done, rest, rfl⟩ := List.append_of_mem hn
  have hout : n ∉ done := fun hmem =>
    (List.nodup_cons.mp (List.nodup_middle.mp h.nodup)).1 (List.mem_append_left rest hmem)
  have herase : (done ++ n :: rest).erase n = done ++ rest := by
    rw [List.erase_append_right _ hout, List.erase_cons_head]
  rw [herase]
  cases rest with
  | nil =>
    cases hlast : done.getLast? with
    | none =>
      obtain rfl := List.getLast?_eq_none_iff.mp hlast
      rw [remove_only h]
      simp
    | some z =>
      rw [List.append_nil]
      refine iff_of_true (keeps_remove_last h hlast) ?_
      rintro heq
      obtain rfl := List.append_left_eq_self.mp heq
      cases hlast
  | cons b rest =>
    cases hlast : done.getLast? with
    | none =>
      obtain rfl := List.getLast?_eq_none_iff.mp hlast
      exact iff_of_true (keeps_remove_first h) (by simp)
    | some a =>
      refine iff_of_true (keeps_remove_middle h hlast rfl) ?_
      intro heq
      have hlen := congrArg List.length heq
      simp at hlen
      omega

/-! ## Runs -/

theorem keeps_step_iff (s : Option (Dll α) × List α) (op : DllOp α) (h : KeepsDll s) (hop : ProperOp s.2 op) :
    KeepsDll (dllSteps s op) ↔ FitsMacro s.2 op := by
  obtain ⟨state, xs⟩ := s
  obtain ⟨d, hd, hlinked⟩ := h
  cases hd
  cases op with
  | pushBack n => exact iff_of_true (keeps_pushBack hlinked hop) trivial
  | pushFront n => exact keeps_pushFront_iff hlinked hop
  | remove n => exact keeps_remove_iff hlinked hop

theorem isDll_runs_iff (node : DllField → α → Option α) (ops : List (DllOp α))
    (hproper : Runs.Along dllSteps (fun s op => ProperOp s.2 op) (dllStart node) ops) :
    (∀ done, done <+: ops → ∃ d, (Runs.run dllSteps (dllStart node) done).1 = some d ∧
        IsDll d (Runs.run dllSteps (dllStart node) done).2) ↔
      Runs.Along dllSteps (fun s op => FitsMacro s.2 op) (dllStart node) ops := by
  have hstart : KeepsDll (dllStart node) := ⟨_, rfl, rfl, rfl, trivial, List.nodup_nil⟩
  simp only [isDll_iff]
  exact Runs.prefixes_iff_along keeps_step_iff hstart hproper

/-- Three nodes, of which the one in the middle is removed -/
theorem isDll_runs_iff_three :
    ∃ d, (Runs.run dllSteps (dllStart fun _ (_ : Nat) => none)
        [.pushFront 1, .pushBack 2, .pushBack 3, .remove 2]).1 = some d ∧ IsDll d [1, 3] :=
  (isDll_runs_iff (fun _ (_ : Nat) => none) [.pushFront 1, .pushBack 2, .pushBack 3, .remove 2]
    (by simp [Runs.Along, ProperOp, dllSteps, dllStart, plainStep])).mpr
    (by simp [Runs.Along, FitsMacro, dllSteps, dllStart, plainStep]) _ (List.prefix_refl _)

theorem not_isDll_pushFront :
    Runs.Along dllSteps (fun s op => ProperOp s.2 op) (dllStart fun _ (_ : Nat) => none)
        [.pushFront 1, .pushFront 2] ∧
      ¬ ∃ d, (Runs.run dllSteps (dllStart fun _ (_ : Nat) => none) [.pushFront 1, .pushFront 2]).1 = some d ∧
        IsDll d (Runs.run dllSteps (dllStart fun _ (_ : Nat) => none) [.pushFront 1, .pushFront 2]).2 := by
  refine ⟨by simp [Runs.Along, ProperOp, dllSteps, dllStart, plainStep], ?_⟩
  rintro ⟨d, hrun, hdll⟩
  have hl : (Runs.run dllSteps (dllStart fun _ (_ : Nat) => none) [.pushFront 1, .pushFront 2]).1.map Dll.l =
      some (some 2) := by decide
  rw [hrun, Option.map_some, hdll.last] at hl
  exact absurd hl (by decide)

end CWebServer
