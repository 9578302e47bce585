import CWebServer.Join
import CWebServer.SpmcWords
import CWebServer.StrCopy

/-!
# The worker threads

`wsInit` creates every worker into the first slot and `wsShutdown` joins the
thread of the first slot, as many times as there are slots. With two workers
or more all threads but the last one are lost.
-/

namespace CWebServer

/-- What the system has seen: the handles of the created threads, those handed to `pthread_join`, the closed sockets. -/
structure System where
  created : List Nat := []
  joined : List Nat := []
  closed : List Int := []

/-- `handle` and `tmpThreadName` are the fields of `internal`; no thread has the handle 0. -/
structure OsThread where
  handle : Nat
  tmpThreadName : Option (List UInt8)
  running : Bool
  deriving DecidableEq, Repr

/-- The results of the three `pthread` calls of `os_threadCreate`. -/
structure ThreadResults where
  attrInit : Int
  setStackSize : Int
  create : Int

/-- `stackSize` is never 0. -/
def osThreadCreate (results : ThreadResults) (system : System) (thread : OsThread) (name : List UInt8) :
    Bool × System × OsThread :=
  if results.attrInit ≠ 0 then (false, system, thread)
  else if results.setStackSize ≠ 0 then (false, system, thread)
  else
    let thread := { thread with tmpThreadName := if 0 < name.length then some (name.take 1023) else none }
    if results.create ≠ 0 then (false, system, thread)
    else
      let handle := system.created.length + 1
      -- when the semaphore is posted the thread has taken its name
      (true, { system with created := system.created ++ [handle] }, { handle, tmpThreadName := none, running := true })

def osThreadShutdown (system : System) (thread : OsThread) : System × OsThread :=
  ({ system with joined := system.joined ++ [thread.handle] }, { thread with handle := 0, running := false })

inductive WsError
  | ok | genericError | socketCreationFailed | socketOptionSetFailed | socketBindingFailed | socketListenFailed
  | sslServerContextCreationFailed | sslPrivateKeyLoadFailed
  deriving DecidableEq, Repr

structure WsDesc where
  certPath : List UInt8
  privKeyPath : List UInt8
  maxWorkers : UInt32
  workerMemory : Nat → OsThread
  queueSocketMem : List Int
  maxQueuedConnection : UInt32

structure WsWorkers where
  items : Nat → OsThread
  count : UInt32
  capacity : UInt32

structure WsServerContext where
  socketQueue : SpmcQueueWords
  workers : WsWorkers
  socketDesc : Int

/-- The results of the calls of `ws_init`, and the memory of its arenas. -/
structure InitResults where
  socket : Int
  setsockopt : Int
  bind : Int
  listen : Int
  sslCtxNew : Bool
  checkPrivateKey : Bool
  threads : Nat → ThreadResults
  stack : Nat → UInt8

def System.close (system : System) (socketDesc : Int) : System :=
  { system with closed := system.closed ++ [socketDesc] }

def nameArena (stack : Nat → UInt8) : Arena := memMakeArenaPreAllocated stack (sizeOfArena + 57)

/-- The `left` last turns of the loop, from `idx` on. -/
def createWorkers (results : InitResults) :
    Nat → Nat → System → (Nat → OsThread) → Option (System × (Nat → OsThread))
  | 0, _, system, items => some (system, items)
  | left + 1, idx, system, items => do
    let (name, arena) ← strJoinVargs (nameArena results.stack) [.str (s8 "ws_worker"), .u32 idx]
    let (_, system, thread) := osThreadCreate (results.threads idx) system (items 0) (name.inArena arena)
    createWorkers results left (idx + 1) system (Function.update items 0 thread)

/-- `none` is a fault. -/
def wsInit (results : InitResults) (desc : WsDesc) (system : System) (webServer : WsServerContext) :
    Option (WsError × System × WsServerContext) :=
  let socketDesc := results.socket
  if socketDesc = -1 then some (.socketCreationFailed, system, webServer)
  else if results.setsockopt ≠ 0 then some (.socketOptionSetFailed, system.close socketDesc, webServer)
  else if results.bind < 0 then some (.socketBindingFailed, system.close socketDesc, webServer)
  else if results.listen ≠ 0 then some (.socketListenFailed, system.close socketDesc, webServer)
  else if results.sslCtxNew = false then some (.sslServerContextCreationFailed, system.close socketDesc, webServer)
  else do
    let localArena := memMakeArenaPreAllocated results.stack (sizeOfArena + 2048)
    let (_, localArena) ← strCopyNullTerminated localArena desc.certPath
    let _ ← strCopyNullTerminated localArena desc.privKeyPath
    if results.checkPrivateKey = false then some (.sslPrivateKeyLoadFailed, system.close socketDesc, webServer)
    else do
      let capacity := desc.maxWorkers
      let socketQueue := .init desc.maxQueuedConnection desc.queueSocketMem
      let (system, items) ← createWorkers results capacity.toNat 0 system desc.workerMemory
      some (.ok, system, { socketQueue, workers := { items, count := capacity, capacity }, socketDesc })

def shutdownWorkers : Nat → System → (Nat → OsThread) → System × (Nat → OsThread)
  | 0, system, items => (system, items)
  | left + 1, system, items =>
    let (system, thread) := osThreadShutdown system (items 0)
    shutdownWorkers left system (Function.update items 0 thread)

def wsShutdown (system : System) (context : WsServerContext) : System × WsServerContext :=
  let (system, items) := shutdownWorkers context.workers.capacity.toNat system context.workers.items
  (system.close context.socketDesc, { context with workers := { context.workers with items } })

/-! ## One slot, one thread -/

def slotHandles (context : WsServerContext) : List Nat :=
  (List.range context.workers.capacity.toNat).map fun idx => (context.workers.items idx).handle

/-- The slots hold all the threads, one each, and each thread is joined once. -/
structure OneToOne (system : System) (context : WsServerContext) : Prop where
  distinct : system.created.Nodup
  slots : (slotHandles context).Perm system.created
  joins : (wsShutdown system context).1.joined.Perm system.created

def ThreadResults.Succeeds (results : ThreadResults) : Prop :=
  results.attrInit = 0 ∧ results.setStackSize = 0 ∧ results.create = 0

/-! ## What the loops leave -/

theorem osThreadCreate_succeeds {results : ThreadResults} (h : results.Succeeds) (system : System) (thread : OsThread)
    (name : List UInt8) :
    osThreadCreate results system thread name =
      (true, { system with created := system.created ++ [system.created.length + 1] },
        { handle := system.created.length + 1, tmpThreadName := none, running := true }) := by
  obtain ⟨hattr, hsize, hcreate⟩ := h
  unfold osThreadCreate
  simp only [hattr, hsize, hcreate, ne_eq, not_true_eq_false, if_false]

/-- All threads are created into slot 0, which keeps the last one. -/
theorem createWorkers_succeeds {results : InitResults} (h : ∀ idx, (results.threads idx).Succeeds) {left idx : Nat}
    {system system' : System} {items items' : Nat → OsThread}
    (hcreate : createWorkers results left idx system items = some (system', items')) :
    system'.created = system.created ++ List.range' (system.created.length + 1) left ∧
      system'.joined = system.joined ∧ (0 < left → (items' 0).handle = system.created.length + left) := by
  induction left generalizing idx system items with
  | zero =>
    cases hcreate
    simp
  | succ left ih =>
    obtain ⟨⟨name, arena⟩, -, hcreate⟩ := Option.bind_eq_some_iff.mp hcreate
    simp only [osThreadCreate_succeeds (h idx)] at hcreate
    obtain ⟨hcreated, hjoined, hslot⟩ := ih hcreate
    refine ⟨?_, hjoined, ?_⟩
    · rw [hcreated, List.range'_succ]
      simp
    · intro _
      cases left with
      | zero =>
        cases hcreate
        simp
      | succ left =>
        rw [hslot (Nat.succ_pos _)]
        simp
        omega

/-- The handles that the loop of `ws_shutdown` joins. -/
def joinedHandles : Nat → Nat → List Nat
  | 0, _ => []
  | left + 1, handle => handle :: joinedHandles left 0

/-- The second call joins the handle that the first one has cleared. -/
theorem zero_mem_joinedHandles (left handle : Nat) : 0 ∈ joinedHandles (left + 2) handle := by
  simp [joinedHandles]

theorem shutdownWorkers_joined (left : Nat) (system : System) (items : Nat → OsThread) :
    (shutdownWorkers left system items).1.joined = system.joined ++ joinedHandles left (items 0).handle := by
  induction left generalizing system items with
  | zero => simp [shutdownWorkers, joinedHandles]
  | succ left ih =>
    rw [shutdownWorkers, ih]
    simp [osThreadShutdown, joinedHandles]

theorem wsInit_ok {results : InitResults} {desc : WsDesc} {system system' : System}
    {webServer context : WsServerContext}
    (h : wsInit results desc system webServer = some (.ok, system', context)) :
    createWorkers results desc.maxWorkers.toNat 0 system desc.workerMemory = some (system', context.workers.items) ∧
      context.workers.capacity = desc.maxWorkers := by
  unfold wsInit at h
  dsimp only at h
  -- the errors before the certificate is read
  iterate 5
    split at h
    · cases h
  obtain ⟨⟨certPath, localArena⟩, -, h⟩ := Option.bind_eq_some_iff.mp h
  obtain ⟨privKeyPath, -, h⟩ := Option.bind_eq_some_iff.mp h
  split at h
  · cases h
  · obtain ⟨⟨created, items⟩, hcreate, h⟩ := Option.bind_eq_some_iff.mp h
    cases h
    exact ⟨hcreate, rfl⟩

theorem oneToOne_iff {results : InitResults} {desc : WsDesc} {webServer context : WsServerContext} {system : System}
    (hthreads : ∀ idx, (results.threads idx).Succeeds)
    (h : wsInit results desc {} webServer = some (.ok, system, context)) :
    OneToOne system context ↔ desc.maxWorkers.toNat ≤ 1 := by
  obtain ⟨hcreate, hcapacity⟩ := wsInit_ok h
  obtain ⟨hcreated, hjoined, hslot⟩ := createWorkers_succeeds hthreads hcreate
  have hshutdown : (wsShutdown system context).1.joined = _ :=
    shutdownWorkers_joined context.workers.capacity.toNat system context.workers.items
  rw [hcapacity, hjoined, List.nil_append] at hshutdown
  rw [List.nil_append, List.length_nil] at hcreated
  constructor
  · intro hone
    by_contra hmany
    obtain ⟨left, hleft⟩ := Nat.exists_eq_add_of_le' (Nat.not_le.mp hmany)
    have hzero : 0 ∈ (wsShutdown system context).1.joined := by
      rw [hshutdown, hleft]
      exact zero_mem_joinedHandles left _
    have hmem := hone.joins.subset hzero
    rw [hcreated, List.mem_range'_1] at hmem
    omega
  · intro hle
    have hslots : slotHandles context = (List.range desc.maxWorkers.toNat).map fun idx =>
        (context.workers.items idx).handle := by
      rw [slotHandles, hcapacity]
    rcases Nat.le_one_iff_eq_zero_or_eq_one.mp hle with hn | hn
    · rw [hn] at hcreated hshutdown hslots
      constructor
      · rw [hcreated]
        exact List.nodup_nil
      · rw [hslots, hcreated]
        exact List.Perm.nil
      · rw [hshutdown, hcreated]
        exact List.Perm.nil
    · have hhandle := hslot (by omega)
      rw [hn] at hcreated hshutdown hslots hhandle
      constructor
      · rw [hcreated]
        simp
      · rw [hslots, hcreated]
        simp [hhandle]
      · rw [hshutdown, hcreated]
        simp [joinedHandles, hhandle]

def workersDesc (maxWorkers : UInt32) : WsDesc where
  certPath := s8 "cert.pem"
  privKeyPath := s8 "privatekey.pem"
  maxWorkers
  workerMemory := fun _ => { handle := 0, tmpThreadName := none, running := false }
  queueSocketMem := [0]
  maxQueuedConnection := 1

def allSucceed : InitResults where
  socket := 3
  setsockopt := 0
  bind := 0
  listen := 0
  sslCtxNew := true
  checkPrivateKey := true
  threads := fun _ => { attrInit := 0, setStackSize := 0, create := 0 }
  stack := fun _ => 0

def emptyContext : WsServerContext where
  socketQueue := .init 1 [0]
  workers := { items := fun _ => { handle := 0, tmpThreadName := none, running := false }, count := 0, capacity := 0 }
  socketDesc := 0

theorem oneToOne_iff_two :
    ∃ system context, wsInit allSucceed (workersDesc 2) {} emptyContext = some (.ok, system, context) ∧
      (OneToOne system context ↔ (workersDesc 2).maxWorkers.toNat ≤ 1) := by
  have hok : (wsInit allSucceed (workersDesc 2) {} emptyContext).map Prod.fst = some .ok := by decide
  obtain ⟨⟨error, system, context⟩, h, rfl⟩ := Option.map_eq_some_iff.mp hok
  exact ⟨system, context, h, oneToOne_iff (fun _ => ⟨rfl, rfl, rfl⟩) h⟩

/-- Both threads are created into slot 0, and the second one is joined with a handle of no thread. -/
theorem not_oneToOne :
    ∃ system context, wsInit allSucceed (workersDesc 2) {} emptyContext = some (.ok, system, context) ∧
      ¬ OneToOne system context := by
  have hjoined : (wsInit allSucceed (workersDesc 2) {} emptyContext).map
      (fun r => (r.1, r.2.1.created, (wsShutdown r.2.1 r.2.2).1.joined)) = some (.ok, [1, 2], [2, 0]) := by decide
  obtain ⟨⟨error, system, context⟩, h, he⟩ := Option.map_eq_some_iff.mp hjoined
  obtain ⟨rfl, he⟩ := Prod.mk.inj he
  obtain ⟨hcreated, hjoins⟩ := Prod.mk.inj he
  refine ⟨system, context, h, ?_⟩
  intro hone
  have hperm := hone.joins
  rw [hcreated, hjoins] at hperm
  exact absurd hperm (by decide)

end CWebServer
