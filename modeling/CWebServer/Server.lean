import Mathlib.Algebra.BigOperators.Fin
import Mathlib.Algebra.Order.Group.Multiset
import Mathlib.Tactic.Abel
import CWebServer.Lib.Runs
import CWebServer.Spmc

/-!
# The accept loop and its workers

`ws_run` puts an accepted socket on the queue, or handles it itself if there
are no workers. Enqueueing and dequeueing are single steps here. A socket is
lost exactly where `ws_run` accepts it while the queue is full.
-/

namespace CWebServer

open Runs (run)

/-- `workers` and `main` are the sockets in the hands of running `handleSocket` calls. -/
structure WsServer (n : Nat) where
  socketQueue : SpmcQueueI32
  workers : Fin n → Option Int
  main : Option Int
  accepted : Multiset Int
  finished : Multiset Int

/-- `run` is a call of `ws_run` with the result of `accept`, `poll` a turn of a worker's loop; the others end a
`handleSocket` call. -/
inductive WsStep (n : Nat)
  | run (clientSock : Int)
  | handled
  | poll (i : Fin n)
  | workerHandled (i : Fin n)
  deriving DecidableEq, Repr

section
variable {n : Nat}

def wsRun (s : WsServer n) (clientSock : Int) : WsServer n :=
  if clientSock < 0 then s
  else if 0 < n then
    -- the result of the enqueue is not looked at
    { s with accepted := s.accepted + {clientSock}, socketQueue := (spmcI32Enqueue s.socketQueue clientSock).2 }
  else { s with accepted := s.accepted + {clientSock}, main := some clientSock }

def wsWorker (s : WsServer n) (i : Fin n) : WsServer n :=
  match spmcI32Dequeue s.socketQueue with
  | (none, _) => s
  | (some socketHandle, queue) =>
    { s with socketQueue := queue, workers := Function.update s.workers i (some socketHandle) }

/-- A thread within a `handleSocket` call neither accepts nor dequeues. -/
def wsStep (s : WsServer n) : WsStep n → WsServer n
  | .run clientSock => if s.main = none then wsRun s clientSock else s
  | .handled =>
    match s.main with
    | none => s
    | some r => { s with main := none, finished := s.finished + {r} }
  | .poll i => if s.workers i = none then wsWorker s i else s
  | .workerHandled i =>
    match s.workers i with
    | none => s
    | some r => { s with workers := Function.update s.workers i none, finished := s.finished + {r} }

def wsStart (n : Nat) (socketQueue : SpmcQueueI32) : WsServer n :=
  { socketQueue, workers := fun _ => none, main := none, accepted := 0, finished := 0 }

def held (call : Option Int) : Multiset Int := call.toList

/-- The sockets in the queue, in the hands of a `handleSocket` call, and finished with. -/
def places (s : WsServer n) : Multiset Int :=
  s.socketQueue.contents + held s.main + ∑ i, held (s.workers i) + s.finished

def Conserved (s : WsServer n) : Prop := places s = s.accepted

/-- No socket is accepted for a queue that is full. -/
def RoomToAccept (s : WsServer n) : WsStep n → Prop
  | .run clientSock =>
    s.main = none → 0 ≤ clientSock → 0 < n → s.socketQueue.contents.length < s.socketQueue.capacity - 1
  | _ => True

theorem sum_update_held (workers : Fin n → Option Int) (i : Fin n) (call : Option Int) :
    ∑ j, held (Function.update workers i call j) + held (workers i) = ∑ j, held (workers j) + held call := by
  have hupd : (fun j => held (Function.update workers i call j)) =
      Function.update (fun j => held (workers j)) i (held call) := by
    funext j
    exact Function.apply_update (fun _ => held) workers i call j
  rw [hupd, Finset.sum_update_of_mem (Finset.mem_univ i), ← Finset.add_sum_erase _ _ (Finset.mem_univ i),
    Finset.sdiff_singleton_eq_erase]
  simp only [add_comm, add_left_comm]

theorem enqueue_contents (queue : SpmcQueueI32) (item : Int) :
    (spmcI32Enqueue queue item).2.contents =
      if queue.contents.length < queue.capacity - 1 then queue.contents ++ [item] else queue.contents := by
  have h := congrArg Prod.snd (enqueue_refines queue item)
  simp only [Ring.push] at h
  rw [h]
  split <;> rfl

@[simp] theorem held_none : held none = 0 := rfl

@[simp] theorem held_some (r : Int) : held (some r) = {r} := rfl

theorem accepted_run (s : WsServer n) {r : Int} (hr : 0 ≤ r) : (wsRun s r).accepted = s.accepted + {r} := by
  unfold wsRun
  rw [if_neg (by omega)]
  split <;> rfl

theorem places_run_queue (s : WsServer n) {r : Int} (hr : 0 ≤ r) (hn : 0 < n) :
    places (wsRun s r) =
      if s.socketQueue.contents.length < s.socketQueue.capacity - 1 then places s + {r} else places s := by
  unfold wsRun
  rw [if_neg (by omega), if_pos hn]
  unfold places
  rw [enqueue_contents]
  by_cases hroom : s.socketQueue.contents.length < s.socketQueue.capacity - 1
  · rw [if_pos hroom, if_pos hroom, ← Multiset.coe_add, Multiset.coe_singleton]
    abel
  · rw [if_neg hroom, if_neg hroom]

theorem places_run_main {s : WsServer n} {r : Int} (hr : 0 ≤ r) (hn : ¬ 0 < n) (hm : s.main = none) :
    places (wsRun s r) = places s + {r} := by
  unfold wsRun
  rw [if_neg (by omega), if_neg hn]
  unfold places
  rw [hm, held_none, held_some]
  abel

theorem conserved_run_queue {s : WsServer n} (h : Conserved s) {r : Int} (hr : 0 ≤ r) (hn : 0 < n) :
    Conserved (wsRun s r) ↔ s.socketQueue.contents.length < s.socketQueue.capacity - 1 := by
  unfold Conserved at h ⊢
  rw [places_run_queue s hr hn, accepted_run s hr, ← h]
  by_cases hroom : s.socketQueue.contents.length < s.socketQueue.capacity - 1
  · simp only [hroom, if_true]
  · -- the socket is accepted and nowhere
    simp only [hroom, if_false, iff_false]
    intro he
    have := congrArg Multiset.card he
    rw [Multiset.card_add, Multiset.card_singleton] at this
    omega

theorem conserved_run {s : WsServer n} (h : Conserved s) (r : Int) :
    Conserved (wsStep s (.run r)) ↔ RoomToAccept s (.run r) := by
  show Conserved (if s.main = none then wsRun s r else s) ↔ (s.main = none → 0 ≤ r → 0 < n → _)
  by_cases hm : s.main = none
  · rw [if_pos hm]
    by_cases hr : 0 ≤ r
    · by_cases hn : 0 < n
      · rw [conserved_run_queue h hr hn]
        exact ⟨fun hroom _ _ _ => hroom, fun hroom => hroom hm hr hn⟩
      · have hc : Conserved (wsRun s r) := by
          unfold Conserved at h ⊢
          rw [places_run_main hr hn hm, accepted_run s hr, h]
        exact iff_of_true hc fun _ _ h0 => absurd h0 hn
    · rw [wsRun, if_pos (by omega)]
      exact iff_of_true h fun _ h0 => absurd h0 hr
  · rw [if_neg hm]
    exact iff_of_true h fun h0 => absurd h0 hm

theorem places_poll {s : WsServer n} {i : Fin n} (hi : s.workers i = none) : places (wsWorker s i) = places s := by
  have href := dequeue_refines s.socketQueue
  unfold wsWorker
  split
  · rfl
  · rename_i r queue hd
    rw [hd] at href
    cases hc : s.socketQueue.contents with
    | nil => rw [hc] at href; cases href
    | cons x l =>
      rw [hc, Ring.pop, Prod.mk.injEq, Option.some.injEq] at href
      have hsum := sum_update_held s.workers i (some r)
      rw [hi, held_none, add_zero, held_some] at hsum
      unfold places
      rw [hc, href.2, hsum, href.1, ← Multiset.cons_coe, ← Multiset.singleton_add]
      abel

theorem places_workerHandled {s : WsServer n} {i : Fin n} {r : Int} (hi : s.workers i = some r) :
    places { s with workers := Function.update s.workers i none, finished := s.finished + {r} } = places s := by
  have hsum := sum_update_held s.workers i none
  rw [hi, held_none, add_zero, held_some] at hsum
  show s.socketQueue.contents + held s.main + ∑ j, held (Function.update s.workers i none j) + (s.finished + {r}) =
    s.socketQueue.contents + held s.main + ∑ j, held (s.workers j) + s.finished
  rw [← hsum]
  abel

theorem conserved_step (s : WsServer n) (a : WsStep n) (h : Conserved s) :
    Conserved (wsStep s a) ↔ RoomToAccept s a := by
  cases a with
  | run r => exact conserved_run h r
  | handled =>
    refine iff_of_true ?_ trivial
    simp only [wsStep]
    split
    · exact h
    · rename_i r hm
      unfold Conserved places at h
      rw [hm, held_some] at h
      show s.socketQueue.contents + held none + ∑ j, held (s.workers j) + (s.finished + {r}) = s.accepted
      rw [← h, held_none]
      abel
  | poll i =>
    refine iff_of_true ?_ trivial
    simp only [wsStep]
    split
    · rename_i hi
      have hacc : (wsWorker s i).accepted = s.accepted := by unfold wsWorker; split <;> rfl
      unfold Conserved at h ⊢
      rw [places_poll hi, h, hacc]
    · exact h
  | workerHandled i =>
    refine iff_of_true ?_ trivial
    simp only [wsStep]
    split
    · exact h
    · rename_i r hi
      exact (places_workerHandled hi).trans h

theorem conserved_start (queue : SpmcQueueI32) (h : queue.contents = []) : Conserved (wsStart n queue) := by
  unfold Conserved places wsStart
  simp [h]

/-- All along a run each accepted socket is in one place exactly if none is accepted for a full queue. -/
theorem conserved_iff {capacity : Nat} (hc : 0 < capacity) (queueSocketMem : Nat → Int) (n : Nat)
    (steps : List (WsStep n)) :
    (∀ bs, bs <+: steps → Conserved (run wsStep (wsStart n (spmcI32Init capacity queueSocketMem hc)) bs)) ↔
      Runs.Along wsStep RoomToAccept (wsStart n (spmcI32Init capacity queueSocketMem hc)) steps :=
  Runs.prefixes_iff conserved_step (conserved_start _ (contents_init capacity queueSocketMem hc)) steps

theorem conserved_two_sockets :
    Conserved (run wsStep (wsStart 1 (spmcI32Init 2 (fun _ => 0) (by decide))) [.run 5, .poll 0, .run 6]) :=
  (conserved_iff (by decide) _ 1 [.run 5, .poll 0, .run 6]).mpr
    ⟨fun _ _ _ => by decide, trivial, fun _ _ _ => by decide, trivial⟩ _ (List.prefix_refl _)

/-- The second socket finds the only slot taken. -/
theorem socket_dropped :
    ¬ Conserved (run wsStep (wsStart 1 (spmcI32Init 2 (fun _ => 0) (by decide))) [.run 5, .run 6]) := by
  intro h
  have := congrArg Multiset.card h
  exact absurd this (by decide)

end

end CWebServer
