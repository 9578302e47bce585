import Mathlib.Data.List.Infix

/-!
# Paths as components

A path is its components with separators between them. `resolve` leaves out
each `dot` that a separator follows, and lets each `up` take back the component
before it.
-/

namespace Components

section
variable {α : Type*} (sep : α)

theorem mem_infix {c : List α} {cs : List (List α)} (h : c ∈ cs) : c <:+: [sep].intercalate cs := by
  induction cs with
  | nil => cases h
  | cons x cs ih =>
    cases cs with
    | nil =>
      rw [List.intercalate_singleton, List.mem_singleton.mp h]
    | cons y cs =>
      rw [List.intercalate_cons_cons]
      rcases List.mem_cons.mp h with rfl | h
      · rw [List.append_assoc]
        exact (List.prefix_append _ _).isInfix
      · exact (ih h).trans (List.suffix_append _ _).isInfix

/-- A component that a separator follows is at the start, or behind another separator. -/
theorem followed_infix {c : List α} {cs : List (List α)} (h : c ∈ cs.dropLast) :
    c ++ [sep] <+: [sep].intercalate cs ∨ sep :: (c ++ [sep]) <:+: [sep].intercalate cs := by
  induction cs with
  | nil => cases h
  | cons x cs ih =>
    cases cs with
    | nil => cases h
    | cons y cs =>
      rw [List.intercalate_cons_cons]
      rcases List.mem_cons.mp h with rfl | h
      · exact Or.inl (List.prefix_append _ _)
      · right
        rcases ih h with ⟨rest, hrest⟩ | hinfix
        · exact ⟨x, rest, by rw [← hrest]; simp⟩
        · exact hinfix.trans (List.suffix_append _ _).isInfix

end

section
variable {α : Type*} [DecidableEq α] (sep : α) (dot up : List α)

/-- `done` are the components in front, the last one first. -/
def resolve : List (List α) → List (List α) → List (List α)
  | done, [] => done.reverse
  | done, c :: rest =>
    if c = up then resolve done.tail rest
    else if c = dot ∧ rest ≠ [] then resolve done rest
    else resolve (c :: done) rest

def normal (path : List α) : List α := [sep].intercalate (resolve dot up [] (path.splitOn sep))

/-- Each `up` finds a component that is not empty to take back. -/
def Resolvable : List (List α) → List (List α) → Prop
  | _, [] => True
  | done, c :: rest =>
    if c = up then done.headD [] ≠ [] ∧ Resolvable done.tail rest
    else if c = dot ∧ rest ≠ [] then Resolvable done rest
    else Resolvable (c :: done) rest

variable {sep dot up}

theorem resolve_plain {cs : List (List α)} (hup : up ∉ cs) (hdot : dot ∉ cs.dropLast) (done : List (List α)) :
    resolve dot up done cs = done.reverse ++ cs := by
  induction cs generalizing done with
  | nil => exact (List.append_nil _).symm
  | cons c cs ih =>
    have hc : c ≠ up := fun h => hup (h ▸ List.mem_cons_self)
    have hrest : ¬ (c = dot ∧ cs ≠ []) := by
      rintro ⟨rfl, hne⟩
      obtain ⟨d, ds, rfl⟩ := List.exists_cons_of_ne_nil hne
      exact hdot List.mem_cons_self
    have hdot' : dot ∉ cs.dropLast := by
      intro h
      cases cs with
      | nil => cases h
      | cons d ds => exact hdot (List.mem_cons_of_mem _ h)
    rw [resolve, if_neg hc, if_neg hrest, ih (fun h => hup (List.mem_cons_of_mem _ h)) hdot']
    simp

/-- A path without `up`, and without a `dot` before a separator, is normal. -/
theorem normal_eq {path : List α} (hup : ¬ up <:+: path) (hfirst : ¬ dot ++ [sep] <+: path)
    (hdot : ¬ sep :: (dot ++ [sep]) <:+: path) : normal sep dot up path = path := by
  have hsplit : [sep].intercalate (path.splitOn sep) = path := List.intercalate_splitOn sep
  have hup' : up ∉ path.splitOn sep := fun h => hup (hsplit ▸ mem_infix sep h)
  have hdot' : dot ∉ (path.splitOn sep).dropLast := by
    intro h
    have hinfix := followed_infix sep h
    rw [hsplit] at hinfix
    exact hinfix.elim hfirst hdot
  rw [normal, resolve_plain hup' hdot']
  exact hsplit

theorem normal_dot (hdot : dot ≠ up) (hsep : sep ∉ dot) (path : List α) :
    normal sep dot up (dot ++ sep :: path) = normal sep dot up path := by
  rw [normal, List.splitOn_append_cons_self_of_not_mem hsep, resolve, if_neg hdot,
    if_pos ⟨rfl, List.splitOn_ne_nil sep path⟩]
  rfl

end

end Components
