import CWebServer.SpmcSteps

/-!
# Interleavings on the socket queue

With a single consumer the queue keeps its values and never hands out one too
many. With two, a consumer that stalls for a full turn of the ring breaks both.
-/

namespace CWebServer

open Runs (run Reaches)

section
variable {n : Nat}

/-- Each call returns what its slot held at the compare-and-swap, and the producer is not about to overwrite a
reserved slot. -/
def ValueIntegrity (s : SpmcThreads n) : Prop :=
  (∀ p ∈ s.returned, p.1 = p.2) ∧
    ∀ i currentHead held item, s.consumers i = .loadItem currentHead held →
      s.producer ≠ .storeItem item currentHead

/-- A compare-and-swap that would succeed finds an item, no more items have left than came, and no access of a
consumer takes the occupancy from zero to `capacity - 1`. -/
def NeverOverDequeues (s : SpmcThreads n) : Prop :=
  (∀ i, s.consumers i = .swapHead s.queue.head → s.queue.head ≠ s.queue.tail) ∧
    s.dequeued ≤ s.enqueued ∧
    ∀ i, s.queue.occupancy = 0 → (consumeStep s i).queue.occupancy ≠ s.queue.capacity - 1

/-! ## One consumer -/

/-- Between `loadHead` and `storeTail` the producer's `currentTail` is the tail, and behind `loadHead` there is room. -/
def ProducerOk (s : SpmcThreads n) : ProducerPc → Prop
  | .idle => True
  | .loadHead _ currentTail => currentTail = s.queue.tail
  | .storeItem _ currentTail | .storeTail currentTail =>
    currentTail = s.queue.tail ∧ s.enqueued + 1 < s.dequeued + s.queue.capacity

def ConsumerOk (s : SpmcThreads n) : ConsumerPc → Prop
  | .loadHead => True
  | .loadTail currentHead => currentHead = s.queue.head
  | .swapHead currentHead => currentHead = s.queue.head ∧ s.dequeued < s.enqueued
  | .loadItem currentHead held => ∃ d, s.dequeued = d + 1 ∧ currentHead = d % s.queue.capacity ∧
      s.queue.items currentHead = held

/-- `head` and `tail` are the counters modulo the capacity. -/
structure SpmcInv (s : SpmcThreads n) : Prop where
  head : s.queue.head = s.dequeued % s.queue.capacity
  tail : s.queue.tail = s.enqueued % s.queue.capacity
  le : s.dequeued ≤ s.enqueued
  lt : s.enqueued < s.dequeued + s.queue.capacity
  producer : ProducerOk s s.producer
  consumer : ∀ i, ConsumerOk s (s.consumers i)
  returned : ∀ p ∈ s.returned, p.1 = p.2

theorem spmcInv_start {queue : SpmcQueueI32} (hh : queue.head = 0) (ht : queue.tail = 0) :
    SpmcInv (spmcStart n queue) where
  head := by simp [spmcStart, hh]
  tail := by simp [spmcStart, ht]
  le := Nat.le_refl _
  lt := by simpa [spmcStart] using queue.capacity_pos
  producer := trivial
  consumer _ := trivial
  returned p hp := by cases hp

theorem next_mod {queue : SpmcQueueI32} {i k : Nat} (h : i = k % queue.capacity) :
    queue.next i = (k + 1) % queue.capacity := by
  rw [SpmcQueueI32.next, h, Nat.mod_add_mod]

theorem SpmcInv.full_iff {s : SpmcThreads n} (h : SpmcInv s) :
    s.queue.next s.queue.tail = s.queue.head ↔ s.enqueued + 1 = s.dequeued + s.queue.capacity := by
  rw [← Ring.succ_mod_eq_iff h.le h.lt, ← h.tail, ← h.head]; rfl

theorem SpmcInv.empty_iff {s : SpmcThreads n} (h : SpmcInv s) :
    s.queue.head = s.queue.tail ↔ s.dequeued = s.enqueued := by
  refine ⟨fun he => ?_, fun he => by rw [h.head, h.tail, he]⟩
  rw [h.head, h.tail] at he
  exact Ring.mod_inj h.le h.lt he

theorem SpmcInv.reserved_ne {s : SpmcThreads n} (h : SpmcInv s) {d : Nat} (hd : s.dequeued = d + 1)
    (hroom : s.enqueued + 1 < s.dequeued + s.queue.capacity) : d % s.queue.capacity ≠ s.queue.tail := by
  intro he
  rw [h.tail] at he
  have hle := h.le
  have := Ring.mod_inj (by omega) (by omega) he
  omega

theorem SpmcInv.enqueue {s : SpmcThreads n} (h : SpmcInv s) (item : Int) : SpmcInv (enqueueStep s item) := by
  unfold enqueueStep
  split
  · exact { h with producer := rfl }
  · exact h

theorem ConsumerOk.storeItem {s : SpmcThreads n} {pc : ConsumerPc} (hc : ConsumerOk s pc) (h : SpmcInv s)
    (hroom : s.enqueued + 1 < s.dequeued + s.queue.capacity) (item : Int) :
    ConsumerOk { s with queue := s.queue.storeItem s.queue.tail item, producer := .storeTail s.queue.tail } pc := by
  cases pc with
  | loadItem currentHead held =>
    obtain ⟨d, hd, hcur, hheld⟩ := hc
    refine ⟨d, hd, hcur, ?_⟩
    show Function.update s.queue.items s.queue.tail item currentHead = held
    -- the slot that is written is not one that is reserved
    rw [Function.update_of_ne, hheld]
    rw [hcur]
    exact h.reserved_ne hd hroom
  | loadHead => exact hc
  | loadTail currentHead => exact hc
  | swapHead currentHead => exact hc

theorem ConsumerOk.storeTail {s : SpmcThreads n} {pc : ConsumerPc} (hc : ConsumerOk s pc) (currentTail : Nat) :
    ConsumerOk { s with queue := s.queue.storeTail currentTail, producer := .idle, enqueued := s.enqueued + 1 } pc := by
  cases pc with
  | swapHead currentHead => exact ⟨hc.1, Nat.lt_succ_of_lt hc.2⟩
  | loadHead => exact hc
  | loadTail currentHead => exact hc
  | loadItem currentHead held => exact hc

theorem SpmcInv.produce {s : SpmcThreads n} (h : SpmcInv s) : SpmcInv (produceStep s) := by
  have hp := h.producer
  unfold produceStep
  split
  · exact h
  · rename_i item currentTail hpc
    rw [hpc] at hp
    split
    · exact { h with producer := trivial }
    · rename_i hf
      refine { h with producer := ⟨hp, ?_⟩ }
      have hp : currentTail = s.queue.tail := hp
      rw [hp, h.full_iff] at hf
      have := h.lt
      show s.enqueued + 1 < s.dequeued + s.queue.capacity
      omega
  · rename_i item currentTail hpc
    rw [hpc] at hp
    obtain ⟨rfl, hroom⟩ := hp
    exact { h with producer := ⟨rfl, hroom⟩, consumer := fun i => (h.consumer i).storeItem h hroom item }
  · rename_i currentTail hpc
    rw [hpc] at hp
    obtain ⟨ht, hroom⟩ := hp
    have hle := h.le
    exact { h with
      tail := next_mod (ht.trans h.tail)
      le := Nat.le_succ_of_le hle
      lt := hroom
      producer := trivial
      consumer := fun i => (h.consumer i).storeTail currentTail }

theorem forall_goto {s : SpmcThreads n} (h1 : n ≤ 1) {i : Fin n} {P : ConsumerPc → Prop} {pc : ConsumerPc} (h : P pc) :
    ∀ j, P ((goto s i pc).consumers j) := by
  intro j
  obtain rfl : j = i := Fin.ext (by omega)
  show P (Function.update s.consumers j pc j)
  rw [Function.update_self]
  exact h

theorem SpmcInv.goto {s : SpmcThreads n} (h : SpmcInv s) (h1 : n ≤ 1) (i : Fin n) {pc : ConsumerPc}
    (hpc : ConsumerOk s pc) : SpmcInv (goto s i pc) :=
  { h with consumer := forall_goto h1 (P := ConsumerOk s) hpc }

theorem SpmcInv.swap {s : SpmcThreads n} (h : SpmcInv s) (h1 : n ≤ 1) (i : Fin n) (hlt : s.dequeued < s.enqueued) :
    SpmcInv { CWebServer.goto s i (.loadItem s.queue.head (s.queue.items s.queue.head)) with
      queue := s.queue.storeHead s.queue.head, dequeued := s.dequeued + 1 } := by
  have hl := h.lt
  refine { h with
    head := next_mod h.head
    le := hlt
    lt := by show s.enqueued < s.dequeued + 1 + s.queue.capacity; omega
    producer := ?_
    consumer := forall_goto h1 ⟨s.dequeued, rfl, h.head, rfl⟩ }
  have hp := h.producer
  show ProducerOk _ s.producer
  cases hpc : s.producer with
  | idle => trivial
  | loadHead _ _ => rw [hpc] at hp; exact hp
  | storeItem _ _ =>
    rw [hpc] at hp
    exact ⟨hp.1, by have := hp.2; show s.enqueued + 1 < s.dequeued + 1 + s.queue.capacity; omega⟩
  | storeTail _ =>
    rw [hpc] at hp
    exact ⟨hp.1, by have := hp.2; show s.enqueued + 1 < s.dequeued + 1 + s.queue.capacity; omega⟩

theorem SpmcInv.consume {s : SpmcThreads n} (h : SpmcInv s) (h1 : n ≤ 1) (i : Fin n) : SpmcInv (consumeStep s i) := by
  have hc := h.consumer i
  unfold consumeStep
  split
  · exact h.goto h1 i rfl
  · rename_i currentHead hpc
    rw [hpc] at hc
    obtain rfl : currentHead = s.queue.head := hc
    split
    · exact h.goto h1 i trivial
    · rename_i hne
      refine h.goto h1 i ⟨rfl, Nat.lt_of_le_of_ne h.le fun he => hne (h.empty_iff.mpr he)⟩
  · rename_i currentHead hpc
    rw [hpc] at hc
    -- nobody else moves the head, so the compare-and-swap succeeds
    obtain ⟨rfl, hlt⟩ := hc
    rw [if_pos rfl]
    exact h.swap h1 i hlt
  · rename_i currentHead held hpc
    rw [hpc] at hc
    obtain ⟨d, _, _, hheld⟩ := hc
    have hg : SpmcInv (CWebServer.goto s i .loadHead) := h.goto h1 i trivial
    refine { hg with returned := fun p hp => ?_ }
    rcases List.mem_append.mp hp with hp | hp
    · exact h.returned p hp
    · rw [List.mem_singleton.mp hp]; exact hheld

theorem SpmcInv.step {s : SpmcThreads n} (h1 : n ≤ 1) (a : SpmcAccess n) (h : SpmcInv s) : SpmcInv (spmcStep s a) := by
  cases a with
  | enqueue item => exact h.enqueue item
  | produce => exact h.produce
  | consume i => exact h.consume h1 i

theorem SpmcInv.valueIntegrity {s : SpmcThreads n} (h : SpmcInv s) : ValueIntegrity s := by
  refine ⟨h.returned, fun i currentHead held item hc hp => ?_⟩
  have hci := h.consumer i
  have hpi := h.producer
  rw [hc] at hci
  rw [hp] at hpi
  obtain ⟨d, hd, hcur, _⟩ := hci
  exact h.reserved_ne hd hpi.2 (hcur ▸ hpi.1)

theorem SpmcInv.neverOverDequeues {s : SpmcThreads n} (h : SpmcInv s) (hcap : 2 ≤ s.queue.capacity) :
    NeverOverDequeues s := by
  have hswap : ∀ i, s.consumers i = .swapHead s.queue.head → s.queue.head ≠ s.queue.tail := by
    intro i hc he
    have hci := h.consumer i
    rw [hc] at hci
    exact Nat.ne_of_lt hci.2 (h.empty_iff.mp he)
  refine ⟨hswap, h.le, fun i h0 => ?_⟩
  have he := s.queue.occupancy_eq_zero_iff.mp h0
  -- on an empty queue no compare-and-swap succeeds
  have hq : (consumeStep s i).queue = s.queue := by
    unfold consumeStep
    split
    · rfl
    · split <;> rfl
    · rename_i currentHead hc
      rw [if_neg]
      · rfl
      · intro hh
        rw [← hh] at hc
        exact hswap i hc he
    · rfl
  rw [hq, h0]
  omega

/-! ## Two consumers -/

/-- The producer and consumer `i` are between two calls and consumer `j` stands at `pc`, with `h` items taken and
`t` put on a ring of `c` slots. -/
structure Stalled (i j : Fin n) (pc : ConsumerPc) (c h t : Nat) (s : SpmcThreads n) : Prop where
  capacity : s.queue.capacity = c
  head : s.queue.head = h % c
  tail : s.queue.tail = t % c
  producer : s.producer = .idle
  free : s.consumers i = .loadHead
  stalled : s.consumers j = pc

theorem mod_ne_succ_mod {c : Nat} (hc : 2 ≤ c) (k : Nat) : k % c ≠ (k + 1) % c := by
  intro h
  have := Ring.mod_inj (by omega) (by omega) h
  omega

section
variable {i j : Fin n} {pc : ConsumerPc} {c k : Nat} {s : SpmcThreads n}

theorem Stalled.start (items : Nat → Int) (hc : 0 < c) :
    Stalled i j .loadHead c 0 0 (spmcStart n (spmcI32Init c items hc)) :=
  ⟨rfl, (Nat.zero_mod c).symm, (Nat.zero_mod c).symm, rfl, rfl, rfl⟩

theorem Stalled.enqueue (hc : 2 ≤ c) (hs : Stalled i j pc c k k s) (item : Int) :
    ∃ s', Reaches spmcStep s s' ∧ Stalled i j pc c k (k + 1) s' ∧ s'.queue.items (k % c) = item := by
  refine ⟨_, .run s (enqueueCall item), ?_⟩
  have hnext : s.queue.next s.queue.tail = (k + 1) % c := by
    rw [next_mod (k := k) (by rw [hs.capacity, hs.tail]), hs.capacity]
  have hroom : s.queue.next s.queue.tail ≠ s.queue.head := by
    rw [hnext, hs.head]
    exact (mod_ne_succ_mod hc k).symm
  rw [run_enqueue hs.producer, spmcI32Enqueue, if_neg hroom]
  refine ⟨{ hs with tail := hnext }, ?_⟩
  show Function.update s.queue.items s.queue.tail item (k % c) = item
  rw [hs.tail, Function.update_self]

theorem Stalled.dequeue (hc : 2 ≤ c) (hs : Stalled i j pc c k (k + 1) s) :
    ∃ s', Reaches spmcStep s s' ∧ Stalled i j pc c (k + 1) (k + 1) s' := by
  refine ⟨_, .run s (dequeueCall i), ?_⟩
  have hne : s.queue.head ≠ s.queue.tail := by
    rw [hs.head, hs.tail]
    exact mod_ne_succ_mod hc k
  have hnext : s.queue.next s.queue.head = (k + 1) % c := by
    rw [next_mod (k := k) (by rw [hs.capacity, hs.head]), hs.capacity]
  rw [run_dequeue hs.free hne, spmcI32Dequeue, if_neg hne]
  exact { hs with head := hnext }

theorem Stalled.turn (hc : 2 ≤ c) (hs : Stalled i j pc c 1 1 s) :
    ∃ s', Reaches spmcStep s s' ∧ Stalled i j pc c c c s' := by
  have hround : ∀ k s, Stalled i j pc c k k s →
      ∃ s', Reaches spmcStep s s' ∧ Stalled i j pc c (k + 1) (k + 1) s' := by
    intro k s hs
    obtain ⟨s', hr, hs', _⟩ := hs.enqueue hc 0
    obtain ⟨s'', hr', hs''⟩ := hs'.dequeue hc
    exact ⟨s'', hr.trans hr', hs''⟩
  have h := Reaches.rounds (P := fun k => Stalled i j pc c k k) hround hs (c - 1)
  rwa [show 1 + (c - 1) = c by omega] at h

theorem Stalled.load (hij : i ≠ j) {t : Nat} (hs : Stalled i j .loadHead c k t s) (hne : k % c ≠ t % c) :
    ∃ s', Reaches spmcStep s s' ∧ Stalled i j (.swapHead (k % c)) c k t s' ∧ s'.queue = s.queue := by
  have hrun : run spmcStep s [.consume j, .consume j] = goto s j (.swapHead (k % c)) := by
    simp only [Runs.run_cons, Runs.run_nil, spmcStep]
    simp only [consumeStep, hs.stalled, goto, Function.update_self, Function.update_idem, hs.head, hs.tail, hne,
      if_false]
  refine ⟨_, ⟨_, hrun⟩, { hs with free := ?_, stalled := Function.update_self .. }, rfl⟩
  exact (Function.update_of_ne hij _ _).trans hs.free

theorem Stalled.swap (hij : i ≠ j) {t : Nat} (hs : Stalled i j (.swapHead (k % c)) c k t s) :
    ∃ s', Reaches spmcStep s s' ∧ Stalled i j (.loadItem (k % c) (s.queue.items (k % c))) c (k + 1) t s' := by
  have hrun : run spmcStep s [.consume j] = { goto s j (.loadItem (k % c) (s.queue.items (k % c))) with
      queue := s.queue.storeHead (k % c), dequeued := s.dequeued + 1 } := by
    simp only [Runs.run_cons, Runs.run_nil, spmcStep]
    simp only [consumeStep, hs.stalled, hs.head, if_true]
  refine ⟨_, ⟨_, hrun⟩, { hs with head := ?_, free := ?_, stalled := Function.update_self .. }⟩
  · have h : k % c = k % s.queue.capacity := by rw [hs.capacity]
    exact (next_mod h).trans (by rw [hs.capacity])
  · exact (Function.update_of_ne hij _ _).trans hs.free

theorem Stalled.return {h t slot : Nat} {held : Int} (hs : Stalled i j (.loadItem slot held) c h t s) :
    ∃ s', Reaches spmcStep s s' ∧ (s.queue.items slot, held) ∈ s'.returned := by
  refine ⟨_, .run s [.consume j], ?_⟩
  simp only [Runs.run_cons, Runs.run_nil, spmcStep]
  simp only [consumeStep, hs.stalled]
  exact List.mem_append_right _ (List.mem_singleton_self _)

end

section
variable {c : Nat} (hc : 2 ≤ c) {i j : Fin n} (hij : i ≠ j) {s : SpmcThreads n} (hs : Stalled i j .loadHead c 0 0 s)
include hc hij hs

/-- Consumer `j` has reserved slot 0; the ring makes a turn and the producer writes the slot again. -/
theorem exists_not_valueIntegrity : ∃ s', Reaches spmcStep s s' ∧ ¬ ValueIntegrity s' := by
  obtain ⟨s₁, r₁, h₁, hitem⟩ := hs.enqueue hc 0
  obtain ⟨s₂, r₂, h₂, hq⟩ := h₁.load hij (mod_ne_succ_mod hc 0)
  obtain ⟨s₃, r₃, h₃⟩ := h₂.swap hij
  rw [hq, hitem, Nat.zero_mod] at h₃
  obtain ⟨s₄, r₄, h₄⟩ := h₃.turn hc
  obtain ⟨s₅, r₅, h₅, hitem'⟩ := h₄.enqueue hc 1
  rw [Nat.mod_self] at hitem'
  obtain ⟨s₆, r₆, hret⟩ := h₅.return
  rw [hitem'] at hret
  refine ⟨s₆, r₁.trans (r₂.trans (r₃.trans (r₄.trans (r₅.trans r₆)))), fun hv => ?_⟩
  exact absurd (hv.1 _ hret) (by decide)

/-- Consumer `j` has seen an item at slot 0; the ring makes a turn and is empty at slot 0 again. -/
theorem exists_not_neverOverDequeues : ∃ s', Reaches spmcStep s s' ∧ ¬ NeverOverDequeues s' := by
  obtain ⟨s₁, r₁, h₁, _⟩ := hs.enqueue hc 0
  obtain ⟨s₂, r₂, h₂, _⟩ := h₁.load hij (mod_ne_succ_mod hc 0)
  obtain ⟨s₃, r₃, h₃⟩ := h₂.dequeue hc
  obtain ⟨s₄, r₄, h₄⟩ := h₃.turn hc
  refine ⟨s₄, r₁.trans (r₂.trans (r₃.trans r₄)), fun hn => hn.1 j ?_ ?_⟩
  · rw [h₄.stalled, h₄.head, Nat.mod_self, Nat.zero_mod]
  · rw [h₄.head, h₄.tail]

end

/-! ## Any number of consumers -/

section
variable {c : Nat} (hc : 2 ≤ c) (n : Nat) (items : Nat → Int)

abbrev spmcInitial : SpmcThreads n := spmcStart n (spmcI32Init c items (Nat.lt_of_lt_of_le (by decide) hc))

theorem sole_inv (h1 : n ≤ 1) {s : SpmcThreads n} (hr : Reaches spmcStep (spmcInitial hc n items) s) : SpmcInv s :=
  hr.invariant (fun _ a h => h.step h1 a) (spmcInv_start rfl rfl)

/-- Two consumers are a race, and one is none. -/
theorem forall_reaches_iff {p : SpmcThreads n → Prop}
    (hsole : n ≤ 1 → ∀ s, Reaches spmcStep (spmcInitial hc n items) s → p s)
    (hrace : ∀ i j : Fin n, i ≠ j → ∃ s, Reaches spmcStep (spmcInitial hc n items) s ∧ ¬ p s) :
    (∀ s, Reaches spmcStep (spmcInitial hc n items) s → p s) ↔ n ≤ 1 := by
  constructor
  · intro h
    by_contra hn
    have hij : (⟨0, by omega⟩ : Fin n) ≠ ⟨1, by omega⟩ := by simp
    obtain ⟨s, hr, hs⟩ := hrace _ _ hij
    exact hs (h s hr)
  · exact hsole

theorem valueIntegrity_iff :
    (∀ s, Reaches spmcStep (spmcInitial hc n items) s → ValueIntegrity s) ↔ n ≤ 1 := by
  apply forall_reaches_iff
  · intro h1 s hr
    exact (sole_inv hc n items h1 hr).valueIntegrity
  · intro i j hij
    exact exists_not_valueIntegrity hc hij (Stalled.start items (by omega))

end

theorem valueIntegrity_sole :
    ValueIntegrity (run spmcStep (spmcInitial (c := 3) (by decide) 1 fun _ => 0) (enqueueCall 5 ++ dequeueCall 0)) :=
  (valueIntegrity_iff (by decide) 1 _).mpr (Nat.le_refl 1) _ (.run _ _)

/-- On two slots: consumer 0 reserves the 0 in slot 0, consumer 1 takes another item, and the producer puts 1 in slot 0
before consumer 0 reads it. -/
def overwrittenRun : List (SpmcAccess 2) :=
  enqueueCall 0 ++ [.consume 0, .consume 0, .consume 0] ++ enqueueCall 0 ++ dequeueCall 1 ++ enqueueCall 1 ++ [.consume 0]

theorem not_valueIntegrity :
    ¬ ∀ s, Reaches spmcStep (spmcInitial (c := 2) (by decide) 2 fun _ => 0) s → ValueIntegrity s := by
  intro h
  have hv := (h _ (.run _ overwrittenRun)).1 (1, 0) (by decide)
  exact absurd hv (by decide)

section
variable {c : Nat} (hc : 2 ≤ c) (n : Nat) (items : Nat → Int)

theorem neverOverDequeues_iff :
    (∀ s, Reaches spmcStep (spmcInitial hc n items) s → NeverOverDequeues s) ↔ n ≤ 1 := by
  apply forall_reaches_iff
  · intro h1 s hr
    apply (sole_inv hc n items h1 hr).neverOverDequeues
    have hcap : s.queue.capacity = c := hr.invariant (fun s a h => (capacity_step s a).trans h) rfl
    omega
  · intro i j hij
    exact exists_not_neverOverDequeues hc hij (Stalled.start items (by omega))

end

theorem neverOverDequeues_sole :
    NeverOverDequeues (run spmcStep (spmcInitial (c := 3) (by decide) 1 fun _ => 0) (enqueueCall 5 ++ dequeueCall 0)) :=
  (neverOverDequeues_iff (by decide) 1 _).mpr (Nat.le_refl 1) _ (.run _ _)

/-- On two slots: consumer 0 sees the item in slot 0, consumer 1 takes it and one more, and consumer 0 swaps the head
of the empty queue. -/
def overDequeuedRun : List (SpmcAccess 2) :=
  enqueueCall 0 ++ [.consume 0, .consume 0] ++ dequeueCall 1 ++ enqueueCall 0 ++ dequeueCall 1 ++ [.consume 0]

theorem not_neverOverDequeues :
    ¬ ∀ s, Reaches spmcStep (spmcInitial (c := 2) (by decide) 2 fun _ => 0) s → NeverOverDequeues s := by
  intro h
  have hn := (h _ (.run _ overDequeuedRun)).2.1
  exact absurd hn (by decide)

end

end CWebServer
