import Mathlib.Algebra.BigOperators.Group.List.Basic
import Mathlib.Algebra.GroupWithZero.Nat
import CWebServer.Lib.Runs

/-!
# The semaphore

Any number of threads post to one semaphore and wait for it. A step is what a
thread does while it holds the mutex, or a wake-up on the condition variable,
and any of them may come next.
-/

namespace CWebServer

open Runs (run)

/-- Where a thread is in `os_semaphoreWait`. A blocked thread has given up the mutex, and waits for it again once its
call on the condition variable has a result. -/
inductive WaitPc
  | outside
  | blocked (timed : Bool)
  | unblocked (timed : Bool) (result : Int32)
  deriving DecidableEq, Repr

/-- `posts` are the amounts posted so far, `waits` the values returned so far, the latest in front. -/
structure Semaphore (ι : Type*) where
  count : Int32
  threads : ι → WaitPc
  posts : List UInt32
  waits : List Bool

/-- `post` comes with the threads that its signals unblock. `wake` unblocks a thread without a signal: `result` is 0
if for no reason, and an error code if its time is over. -/
inductive SemaphoreAction (ι : Type*)
  | post (count : UInt32) (signalled : List ι)
  | wait (thread : ι) (count : Int32)
  | wake (thread : ι) (result : Int32)
  | resume (thread : ι)

section
variable {ι : Type*}

def osSemaphoreInit : Semaphore ι := { count := 0, threads := fun _ => .outside, posts := [], waits := [] }

def pthreadCondSignal (pc : WaitPc) : WaitPc :=
  match pc with
  | .blocked timed => .unblocked timed 0
  | pc => pc

variable [DecidableEq ι]

def osSemaphorePost (si : Semaphore ι) (count : UInt32) (signalled : List ι) : Semaphore ι :=
  { si with
    threads := fun i => if i ∈ signalled then pthreadCondSignal (si.threads i) else si.threads i
    count := (si.count.toUInt32 + count).toInt32
    posts := count :: si.posts }

/-- The rest of `os_semaphoreWait` from the loop test on. -/
def semaphoreLoop (si : Semaphore ι) (thread : ι) (timed : Bool) (result : Int32) : Semaphore ι :=
  if result = 0 ∧ si.count ≤ 0 then { si with threads := Function.update si.threads thread (.blocked timed) }
  else
    let ok : Bool := result = 0
    { si with
      count := if ok then si.count - 1 else si.count
      threads := Function.update si.threads thread .outside
      waits := ok :: si.waits }

def osSemaphoreWait (si : Semaphore ι) (thread : ι) (count : Int32) : Semaphore ι :=
  semaphoreLoop si thread (count ≠ -1) 0

def semaphoreStep (si : Semaphore ι) : SemaphoreAction ι → Semaphore ι
  | .post count signalled => osSemaphorePost si count signalled
  | .wait thread count =>
    match si.threads thread with
    | .outside => osSemaphoreWait si thread count
    | _ => si
  | .wake thread result =>
    match si.threads thread with
    | .blocked timed =>
      -- only a wait with a deadline comes back with an error
      if timed ∨ result = 0 then { si with threads := Function.update si.threads thread (.unblocked timed result) }
      else si
    | _ => si
  | .resume thread =>
    match si.threads thread with
    | .unblocked timed result => semaphoreLoop si thread timed result
    | _ => si

end

/-! ## What a step does to the permits -/

namespace Semaphore

section
variable {ι : Type*}

def posted (si : Semaphore ι) : Nat := (si.posts.map UInt32.toNat).sum

/-- The waits that returned true. -/
def taken (si : Semaphore ι) : Nat := si.waits.count true

structure Conserved (si : Semaphore ι) : Prop where
  nonneg : 0 ≤ si.count.toInt
  sum : (si.taken : Int) + si.count.toInt = si.posted

/-- The part of the state that `Conserved` reads. -/
def permits (si : Semaphore ι) : Int32 × Nat × Nat := (si.count, si.posted, si.taken)

theorem init_conserved : (osSemaphoreInit : Semaphore ι).Conserved := by
  constructor
  · exact Int.le_refl 0
  · rfl

variable [DecidableEq ι]

theorem loop_cases (si : Semaphore ι) (thread : ι) (timed : Bool) (result : Int32) :
    (0 < si.count ∧ (semaphoreLoop si thread timed result).permits = (si.count - 1, si.posted, si.taken + 1)) ∨
      (semaphoreLoop si thread timed result).permits = si.permits := by
  unfold semaphoreLoop
  by_cases hres : result = 0
  · by_cases hcount : si.count ≤ 0
    · right
      rw [if_pos ⟨hres, hcount⟩]
      rfl
    · left
      rw [if_neg fun h => hcount h.2]
      simp [permits, posted, taken, hres, Int32.not_le.mp hcount]
  · right
    rw [if_neg fun h => hres h.1]
    simp [permits, posted, taken, hres]

/-- A step posts an amount, takes one permit that is there, or leaves the permits alone. -/
theorem step_cases (si : Semaphore ι) (a : SemaphoreAction ι) :
    (∃ amount : UInt32, (semaphoreStep si a).permits =
      ((si.count.toUInt32 + amount).toInt32, amount.toNat + si.posted, si.taken)) ∨
    (0 < si.count ∧ (semaphoreStep si a).permits = (si.count - 1, si.posted, si.taken + 1)) ∨
    (semaphoreStep si a).permits = si.permits := by
  cases a with
  | post amount signalled => exact Or.inl ⟨amount, rfl⟩
  | wait thread count =>
    right
    simp only [semaphoreStep]
    split
    · exact loop_cases si thread _ 0
    · exact Or.inr rfl
  | wake thread result =>
    right; right
    simp only [semaphoreStep]
    split
    · split <;> rfl
    · rfl
  | resume thread =>
    right
    simp only [semaphoreStep]
    split
    next timed result _ => exact loop_cases si thread timed result
    · exact Or.inr rfl

theorem posted_le_step (si : Semaphore ι) (a : SemaphoreAction ι) : si.posted ≤ (semaphoreStep si a).posted := by
  rcases step_cases si a with ⟨amount, h⟩ | ⟨-, h⟩ | h
  · have hposted : (semaphoreStep si a).posted = amount.toNat + si.posted := congrArg (·.2.1) h
    rw [hposted]
    exact Nat.le_add_left _ _
  · exact Nat.le_of_eq (congrArg (·.2.1) h).symm
  · exact Nat.le_of_eq (congrArg (·.2.1) h).symm

/-! ## Conservation -/

theorem toInt_add_amount {count : Int32} {amount : UInt32} (h0 : 0 ≤ count.toInt)
    (hlt : count.toInt + amount.toNat < 2 ^ 31) :
    (count.toUInt32 + amount).toInt32.toInt = count.toInt + amount.toNat := by
  have hsmall : 2 * amount.toNat < 2 ^ 32 := by omega
  have hamount : amount.toInt32.toInt = amount.toNat := BitVec.toInt_eq_toNat_of_lt hsmall
  rw [UInt32.toInt32_add, Int32.toInt32_toUInt32, Int32.toInt_add, hamount]
  exact Int.bmod_eq_of_le (by omega) (by omega)

theorem toInt_sub_one {count : Int32} (hpos : 0 < count.toInt) : (count - 1).toInt = count.toInt - 1 := by
  have := count.toInt_lt
  rw [Int32.toInt_sub, show (1 : Int32).toInt = 1 from rfl]
  exact Int.bmod_eq_of_le (by omega) (by omega)

theorem Conserved.step {si : Semaphore ι} (h : si.Conserved) (a : SemaphoreAction ι)
    (hlt : (semaphoreStep si a).posted < 2 ^ 31) : (semaphoreStep si a).Conserved := by
  obtain ⟨hnonneg, hsum⟩ := h
  rcases step_cases si a with ⟨amount, hp⟩ | ⟨hpos, hp⟩ | hp <;>
    simp only [permits, Prod.mk.injEq] at hp <;> obtain ⟨hcount, hposted, htaken⟩ := hp
  · have hadd : (semaphoreStep si a).count.toInt = si.count.toInt + amount.toNat := by
      rw [hcount]
      exact toInt_add_amount hnonneg (by omega)
    constructor <;> omega
  · have hpos : 0 < si.count.toInt := Int32.lt_iff_toInt_lt.mp hpos
    have hsub : (semaphoreStep si a).count.toInt = si.count.toInt - 1 := by rw [hcount, toInt_sub_one hpos]
    constructor <;> omega
  · constructor
    · rw [hcount]
      exact hnonneg
    · rw [hcount, hposted, htaken]
      exact hsum

end

end Semaphore

theorem semaphore_conserves {ι : Type*} [DecidableEq ι] (as : List (SemaphoreAction ι))
    (hlt : (run semaphoreStep osSemaphoreInit as).posted < 2 ^ 31) :
    (run semaphoreStep osSemaphoreInit as).Conserved := by
  have hinv := Runs.run_invariant (I := fun si : Semaphore ι => si.posted < 2 ^ 31 → si.Conserved)
    (fun si a h hlt => (h (Nat.lt_of_le_of_lt (si.posted_le_step a) hlt)).step a hlt)
    (fun _ => Semaphore.init_conserved) as
  exact hinv hlt

/-- Two waits block, one of them wakes up for no reason, and two permits wake both. Another thread comes first to the
second permit, and the second wait runs out of time. -/
def stolenPermit : List (SemaphoreAction Nat) :=
  [.wait 0 (-1), .wait 1 50, .wake 0 0, .resume 0, .post 2 [0, 1], .resume 0, .wait 2 (-1), .resume 1, .wake 1 110,
    .resume 1]

theorem semaphore_conserves_stolenPermit :
    (run semaphoreStep osSemaphoreInit stolenPermit).waits = [false, true, true] ∧
      (run semaphoreStep osSemaphoreInit stolenPermit).Conserved :=
  ⟨by decide, semaphore_conserves stolenPermit (by decide)⟩

end CWebServer
