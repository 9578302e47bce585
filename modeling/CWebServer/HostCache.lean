import CWebServer.Lib.KeyCache
import CWebServer.Lib.Traces
import CWebServer.StrCopy
import CWebServer.Url

/-!
# The host cache of the client

`sendRequest` keeps the address of the last host and compares hosts by a hash
of 32 bits. `gethostbyname` is a parameter: a function of the C string that it
is handed.
-/

namespace CWebServer

open Traces (trace)

def strHash32 (str : List UInt8) : UInt32 := str.foldl (fun hash c => ((hash <<< 5) + hash) + c.toUInt32) 5381

section
variable {Addr : Type}

structure HttpRequestContext (Addr : Type) where
  lastServer : Option Addr := none
  socket : Int := 0
  hostHash : UInt32 := 0

inductive ResolveStep
  | failed | reused | resolved
  deriving DecidableEq, Repr

/-- `sendRequest` up to the end of its resolve step, with the sockets that it closes; what follows does not touch the
context. `stack` is the memory of `localArena`. -/
def sendRequest (gethostbyname : List UInt8 → Option Addr) (stack : Nat → UInt8) (ctx : HttpRequestContext Addr)
    (url : List UInt8) : Option (ResolveStep × List Int × HttpRequestContext Addr) :=
  let host := (urlFromStr url).host
  let hostHash := strHash32 host
  if hostHash ≠ ctx.hostHash ∨ ctx.lastServer.isNone then do
    let closed := if 0 < ctx.socket then [ctx.socket] else []
    let localArena := memMakeArenaPreAllocated stack (sizeOfArena + 2048)
    let (hostNullTerminated, _) ← strCopyNullTerminated localArena host
    match gethostbyname (cString hostNullTerminated) with
    | none => some (.failed, closed, { ctx with lastServer := none, hostHash := 0 })
    | some server => some (.resolved, closed, { ctx with lastServer := some server, hostHash })
  else some (.reused, [], ctx)

/-- The context, and the host that the address in it was resolved for. -/
structure TracedContext (Addr : Type) where
  ctx : HttpRequestContext Addr := {}
  resolvedFor : Option (List UInt8) := none

/-- A request, whether it passes the resolve step, and the address and its host after that step. -/
structure ClientRequest (Addr : Type) where
  host : List UInt8
  passed : Bool
  lastServer : Option Addr
  resolvedFor : Option (List UInt8)

def resolvedHost (resolvedFor : Option (List UInt8)) (host : List UInt8) : ResolveStep → Option (List UInt8)
  | .failed => none
  | .reused => resolvedFor
  | .resolved => some host

def tracedRequest (gethostbyname : List UInt8 → Option Addr) (stack : Nat → UInt8) (traced : TracedContext Addr)
    (url : List UInt8) : Option (ClientRequest Addr × TracedContext Addr) :=
  (sendRequest gethostbyname stack traced.ctx url).map fun r =>
    let host := (urlFromStr url).host
    let resolvedFor := resolvedHost traced.resolvedFor host r.1
    ({ host, passed := r.1 ≠ .failed, lastServer := r.2.2.lastServer, resolvedFor }, { ctx := r.2.2, resolvedFor })

def resolve (gethostbyname : List UInt8 → Option Addr) (host : List UInt8) : Option Addr := gethostbyname (cString host)

/-- A request that passes is sent to its own host, with an address that was resolved for this host. -/
def ClientRequest.ToOwnHost (gethostbyname : List UInt8 → Option Addr) (request : ClientRequest Addr) : Prop :=
  request.passed = true →
    request.lastServer = resolve gethostbyname request.host ∧ request.resolvedFor = some request.host

/-! ## One request -/

variable {gethostbyname : List UInt8 → Option Addr} {stack : Nat → UInt8}

theorem sendRequest_cases {ctx ctx' : HttpRequestContext Addr} {url : List UInt8} {step : ResolveStep}
    {closed : List Int} (h : sendRequest gethostbyname stack ctx url = some (step, closed, ctx')) :
    (strHash32 (urlFromStr url).host = ctx.hostHash ∧ ctx.lastServer.isSome ∧ step = .reused ∧ ctx' = ctx) ∨
      (strHash32 (urlFromStr url).host ≠ ctx.hostHash ∨ ctx.lastServer = none) ∧
        (resolve gethostbyname (urlFromStr url).host = none ∧ step = .failed ∧
            ctx' = { ctx with lastServer := none, hostHash := 0 } ∨
          ∃ server, resolve gethostbyname (urlFromStr url).host = some server ∧ step = .resolved ∧
            ctx' = { ctx with lastServer := some server, hostHash := strHash32 (urlFromStr url).host }) := by
  unfold sendRequest at h
  dsimp only at h
  split at h
  · rename_i hmiss
    rw [Option.isNone_iff_eq_none] at hmiss
    obtain ⟨⟨copy, arena⟩, hcopy, h⟩ := Option.bind_eq_some_iff.mp h
    have hname : resolve gethostbyname (urlFromStr url).host = gethostbyname (cString copy) := by
      rw [resolve, cString_copy hcopy]
    refine Or.inr ⟨hmiss, ?_⟩
    rw [hname]
    cases hserver : gethostbyname (cString copy) with
    | none =>
      rw [hserver] at h
      cases h
      exact Or.inl ⟨rfl, rfl, rfl⟩
    | some server =>
      rw [hserver] at h
      cases h
      exact Or.inr ⟨server, rfl, rfl, rfl⟩
  · rename_i hhit
    cases h
    rw [not_or, not_not, Bool.not_eq_true, Option.isNone_eq_false_iff] at hhit
    exact Or.inl ⟨hhit.1, hhit.2, rfl, rfl⟩

/-- The context holds the address of the entry, under the hash of its host. -/
structure HoldsEntry (traced : TracedContext Addr) (held : Option (List UInt8 × Addr)) : Prop where
  lastServer : traced.ctx.lastServer = held.map Prod.snd
  resolvedFor : traced.resolvedFor = held.map Prod.fst
  hostHash : ∀ entry ∈ held, traced.ctx.hostHash = strHash32 entry.1

theorem holdsEntry_start : HoldsEntry ({} : TracedContext Addr) none where
  lastServer := rfl
  resolvedFor := rfl
  hostHash _ h := nomatch h

theorem HoldsEntry.lookup_miss {traced : TracedContext Addr} {held : Option (List UInt8 × Addr)} {host : List UInt8}
    (hheld : HoldsEntry traced held) (hmiss : strHash32 host ≠ traced.ctx.hostHash ∨ traced.ctx.lastServer = none) :
    KeyCache.lookup strHash32 (resolve gethostbyname) held host = (resolve gethostbyname host).map (host, ·) := by
  cases held with
  | none => rfl
  | some entry =>
    have hserver : traced.ctx.lastServer ≠ none := by
      rw [hheld.lastServer]
      exact Option.some_ne_none _
    have hkey : strHash32 entry.1 ≠ strHash32 host := by
      rw [← hheld.hostHash entry rfl]
      exact (hmiss.resolve_right hserver).symm
    simp [KeyCache.lookup, hkey]

theorem HoldsEntry.lookup_hit {traced : TracedContext Addr} {held : Option (List UInt8 × Addr)} {host : List UInt8}
    (hheld : HoldsEntry traced held) (gethostbyname : List UInt8 → Option Addr)
    (hhash : strHash32 host = traced.ctx.hostHash) (hsome : traced.ctx.lastServer.isSome) :
    KeyCache.lookup strHash32 (resolve gethostbyname) held host = held ∧ held.isSome := by
  cases held with
  | none =>
    rw [hheld.lastServer] at hsome
    cases hsome
  | some entry =>
    have hkey : strHash32 entry.1 = strHash32 host := by
      rw [← hheld.hostHash entry rfl, hhash]
    simp [KeyCache.lookup, hkey]

/-- A request leaves what a request to the cache leaves, and passes with what is then held. -/
theorem tracedRequest_lookup {traced traced' : TracedContext Addr} {held : Option (List UInt8 × Addr)}
    {url : List UInt8} {request : ClientRequest Addr} (hheld : HoldsEntry traced held)
    (h : tracedRequest gethostbyname stack traced url = some (request, traced')) :
    HoldsEntry traced' (KeyCache.lookup strHash32 (resolve gethostbyname) held (urlFromStr url).host) ∧
      (request.ToOwnHost gethostbyname ↔ KeyCache.Own (resolve gethostbyname) (urlFromStr url).host
        (KeyCache.lookup strHash32 (resolve gethostbyname) held (urlFromStr url).host)) := by
  obtain ⟨⟨step, closed, ctx'⟩, hsend, he⟩ := Option.map_eq_some_iff.mp h
  obtain ⟨rfl, rfl⟩ := Prod.mk.inj he
  rcases sendRequest_cases hsend with ⟨hhash, hsome, rfl, rfl⟩ | ⟨hmiss, hresolve⟩
  · obtain ⟨hlookup, hheldSome⟩ := hheld.lookup_hit gethostbyname hhash hsome
    rw [hlookup]
    refine ⟨hheld, ?_⟩
    obtain ⟨⟨host, server⟩, rfl⟩ := Option.isSome_iff_exists.mp hheldSome
    simp only [ClientRequest.ToOwnHost, KeyCache.Own, resolvedHost, hheld.lastServer, hheld.resolvedFor]
    simp
    rw [and_comm, eq_comm (a := some server)]
  · rw [hheld.lookup_miss hmiss]
    refine ⟨?_, ?_⟩
    · rcases hresolve with ⟨hnone, rfl, rfl⟩ | ⟨server, hserver, rfl, rfl⟩
      · rw [hnone]
        exact ⟨rfl, rfl, fun _ h => nomatch h⟩
      · rw [hserver]
        refine ⟨rfl, rfl, ?_⟩
        rintro _ ⟨⟩
        rfl
    · rcases hresolve with ⟨hnone, rfl, rfl⟩ | ⟨server, hserver, rfl, rfl⟩
      · simp [ClientRequest.ToOwnHost, KeyCache.Own, hnone]
      · simp [ClientRequest.ToOwnHost, KeyCache.Own, hserver, resolvedHost]

/-! ## All requests on one context -/

def urlHost (url : List UInt8) : List UInt8 := (urlFromStr url).host

def ServesOwnHosts (gethostbyname : List UInt8 → Option Addr) (stack : Nat → UInt8) (urls : List (List UInt8)) : Prop :=
  ∀ requests traced, trace (tracedRequest gethostbyname stack) {} urls = some (requests, traced) →
    ∀ request ∈ requests, request.ToOwnHost gethostbyname

/-- No request comes right after one for another host, that resolves, with the same hash. -/
def NoHashClash (gethostbyname : List UInt8 → Option Addr) (hosts : List (List UInt8)) : Prop :=
  List.IsChain (KeyCache.Clear strHash32 (resolve gethostbyname)) hosts

theorem trace_served {traced traced' : TracedContext Addr} {held : Option (List UInt8 × Addr)}
    {urls : List (List UInt8)} {requests : List (ClientRequest Addr)} (hheld : HoldsEntry traced held)
    (h : trace (tracedRequest gethostbyname stack) traced urls = some (requests, traced')) :
    (∀ request ∈ requests, request.ToOwnHost gethostbyname) ↔
      ∀ p ∈ KeyCache.served strHash32 (resolve gethostbyname) held (urls.map urlHost),
        KeyCache.Own (resolve gethostbyname) p.1 p.2 := by
  induction urls generalizing traced held requests with
  | nil =>
    cases h
    simp [KeyCache.served]
  | cons url urls ih =>
    obtain ⟨request, next, rest, hrequest, hrest, rfl⟩ := Traces.trace_cons_cases h
    obtain ⟨hnext, hown⟩ := tracedRequest_lookup hheld hrequest
    rw [List.map_cons, KeyCache.served, List.forall_mem_cons, List.forall_mem_cons, hown]
    exact and_congr_right fun _ => ih hnext hrest

theorem ownHosts_iff {urls : List (List UInt8)} {requests : List (ClientRequest Addr)} {traced : TracedContext Addr}
    (h : trace (tracedRequest gethostbyname stack) {} urls = some (requests, traced)) :
    (∀ request ∈ requests, request.ToOwnHost gethostbyname) ↔ NoHashClash gethostbyname (urls.map urlHost) := by
  rw [trace_served holdsEntry_start h]
  exact @KeyCache.served_own_iff _ _ _ _ strHash32 (resolve gethostbyname) none _

end

/-- Two hosts of one hash. -/
def clashUrls : List (List UInt8) := [s8 "http://ab:80/x", s8 "http://bA:80/x"]

theorem ownHosts_iff_clash :
    ∃ requests traced, trace (tracedRequest some fun _ => 0) {} clashUrls = some (requests, traced) ∧
      ((∀ request ∈ requests, request.ToOwnHost some) ↔ NoHashClash some (clashUrls.map urlHost)) := by
  have hsome : (trace (tracedRequest some fun _ => 0) {} clashUrls).isSome = true := by decide
  obtain ⟨⟨requests, traced⟩, h⟩ := Option.isSome_iff_exists.mp hsome
  exact ⟨requests, traced, h, ownHosts_iff h⟩

/-- The second request is sent to the first host. -/
theorem not_servesOwnHosts : ¬ ServesOwnHosts some (fun _ => 0) clashUrls := by
  intro h
  have hservers : (trace (tracedRequest some fun _ => 0) {} clashUrls).map
      (fun r => r.1.map fun request => (request.host, request.passed, request.lastServer)) =
        some [(s8 "ab", true, some (s8 "ab")), (s8 "bA", true, some (s8 "ab"))] := by decide
  obtain ⟨⟨requests, traced⟩, htrace, hmap⟩ := Option.map_eq_some_iff.mp hservers
  have hmem : (s8 "bA", true, some (s8 "ab")) ∈
      requests.map fun request => (request.host, request.passed, request.lastServer) := by
    rw [hmap]
    exact List.mem_cons_of_mem _ List.mem_cons_self
  obtain ⟨request, hrequest, he⟩ := List.mem_map.mp hmem
  obtain ⟨hhost, he⟩ := Prod.mk.inj he
  obtain ⟨hpassed, hserver⟩ := Prod.mk.inj he
  have hown := (h requests traced htrace request hrequest hpassed).1
  rw [hserver, hhost] at hown
  exact absurd hown (by decide)

end CWebServer
