import CWebServer.Asn1Sound

/-!
# Elements that are written

What the loop of the parser does with an element that is written in front of the
rest of its buffer. `Loops` speaks of every run with enough fuel, and has one
rule for each kind of element.
-/

namespace CWebServer

open Der (lengthBytes element lengthBytes_cases length_lengthBytes length_element)

/-! ## Lengths -/

theorem short_byte : ∀ n < 0x80, UInt8.ofNat n &&& 0x80 = 0 ∧ (UInt8.ofNat n).toNat = n := by decide

theorem toNat_ofNat (n : Nat) : (UInt8.ofNat n).toNat = n % 0x100 := by simp

theorem asn1GetLen_lengthBytes {n : Nat} (h : n < 2 ^ 24) (rest : List UInt8) {bufLen : Nat}
    (hlen : (lengthBytes n).length ≤ bufLen) :
    asn1GetLen (lengthBytes n ++ rest) bufLen = some (n, (lengthBytes n).length) := by
  rcases lengthBytes_cases h with ⟨hn, hbytes⟩ | ⟨hn, hbytes⟩ | ⟨hn, hbytes⟩ | ⟨hn, hbytes⟩
  all_goals rw [hbytes] at hlen ⊢
  all_goals simp only [List.length_cons, List.length_nil] at hlen
  all_goals rw [asn1GetLen, if_neg (by omega)]
  · obtain ⟨hsign, hnat⟩ := short_byte n hn
    simp [hsign, hnat]
  · have hle : ¬ bufLen - 1 < 1 := by omega
    have hlong : (129 : UInt8) &&& 128 = 128 := rfl
    simp [hle, hlong, lenLoop]
    omega
  · have hle : ¬ bufLen - 1 < 2 := by omega
    have hlong : (130 : UInt8) &&& 128 = 128 := rfl
    simp [hle, hlong, lenLoop]
    omega
  · have hle : ¬ bufLen - 1 < 3 := by omega
    have hlong : (131 : UInt8) &&& 128 = 128 := rfl
    simp [hle, hlong, lenLoop]
    omega

/-! ## The loop -/

def Asn1State.withDer (st : Asn1State) (bytes : List UInt8) : Asn1State :=
  st.modify fun cert => { cert with derBytes := bytes }

/-- Every run of the loop with enough fuel ends in `P`. -/
def Loops (env : Asn1Env) (level : Nat) (data : List UInt8) (size : Nat) (l : Asn1Locals) (st : Asn1State)
    (P : Asn1State → Asn1Locals → Bool → Prop) : Prop :=
  ∀ fuel chain, size < fuel →
    ∃ st' l' ended, asn1Loop env fuel level chain data size l st = some (st', l', ended) ∧ P st' l' ended

section
variable {env : Asn1Env} {level n size : Nat} {data rest content : List UInt8} {tag : UInt8} {l : Asn1Locals}
  {st : Asn1State} {P Q : Asn1State → Asn1Locals → Bool → Prop}

theorem Loops.imp (h : Loops env level data size l st P) (hPQ : ∀ st' l' ended, P st' l' ended → Q st' l' ended) :
    Loops env level data size l st Q := by
  intro fuel chain hfuel
  obtain ⟨st', l', ended, hrun, hP⟩ := h fuel chain hfuel
  exact ⟨st', l', ended, hrun, hPQ st' l' ended hP⟩

theorem Loops.done (h : P st l true) : Loops env level data 0 l st P := by
  intro fuel chain hfuel
  cases fuel with
  | zero => cases hfuel
  | succ fuel => exact ⟨st, l, true, rfl, h⟩

/-- Bytes of which nothing is known. -/
theorem Loops.unknown (hsize : size < data.length) (hl : l.oid.length = 16)
    (h : ∀ st' l' ended, Turns level l.idx st st' → P st' l' ended) : Loops env level data size l st P := by
  intro fuel chain hfuel
  obtain ⟨st', l', ended, hrun, hturns⟩ := asn1Loop_reads env hfuel level chain data l st hsize hl
  exact ⟨st', l', ended, hrun, h st' l' ended hturns⟩

/-- What is proved of the end holds besides of what a run does at all. -/
theorem Loops.turns (hsize : size < data.length) (hl : l.oid.length = 16) (h : Loops env level data size l st P) :
    Loops env level data size l st fun st' l' ended => P st' l' ended ∧ Turns level l.idx st st' := by
  intro fuel chain hfuel
  obtain ⟨st', l', ended, hrun, hP⟩ := h fuel chain hfuel
  obtain ⟨_, _, _, hrun', hturns⟩ := asn1Loop_reads env hfuel level chain data l st hsize hl
  rw [hrun] at hrun'
  cases hrun'
  exact ⟨st', l', ended, hrun, hP, hturns⟩

theorem privateAsn1Parse_of_loops (h : Loops env level data size {} st P) {fuel : Nat} (hfuel : size < fuel)
    (chain : List (List UInt8)) :
    ∃ st' l' ended, privateAsn1Parse env fuel level chain data size st =
      some (if ended then asn1Finish env level l' st' else st', l'.hasKey) ∧ P st' l' ended := by
  obtain ⟨st', l', ended, hrun, hP⟩ := h fuel chain hfuel
  exact ⟨st', l', ended, by rw [privateAsn1Parse, hrun]; rfl, hP⟩

theorem drop_header : (element tag content ++ rest).drop (1 + (lengthBytes content.length).length) =
    content ++ rest := by
  rw [Nat.add_comm, element, List.cons_append, List.drop_succ_cons, List.append_assoc, List.drop_left]

/-- The parser does not take the element for the end of what is around it. -/
def GoesOn (tag : UInt8) (content : List UInt8) : Prop := tag &&& 0x1F ≠ 0 ∨ content ≠ [] ∧ tag &&& 0x20 ≠ 0

variable (hlen : content.length < 2 ^ 24)

include hlen

theorem Loops.head (h : ∀ fuel chain, content.length < fuel → ∃ st' l' stop,
      asn1Element env (privateAsn1Parse env fuel) level chain tag (element tag content ++ rest)
        (1 + (lengthBytes content.length).length) content.length { l with idx := l.idx + 1 }
        (st.enter level (l.idx + 1)) = some (st', l', stop) ∧
      if stop then P st' l' false else Loops env level rest n l' st' P) :
    Loops env level (element tag content ++ rest) ((element tag content).length + n) l st P := by
  intro fuel chain hfuel
  have hbytes := length_lengthBytes hlen
  rw [length_element] at hfuel ⊢
  cases fuel with
  | zero => cases hfuel
  | succ fuel =>
    have hgetLen : asn1GetLen ((element tag content ++ rest).drop 1)
        (1 + (lengthBytes content.length).length + content.length + n - 1) =
          some (content.length, (lengthBytes content.length).length) := by
      have hdrop : (element tag content ++ rest).drop 1 = lengthBytes content.length ++ (content ++ rest) := by
        simp [element]
      rw [hdrop]
      exact asn1GetLen_lengthBytes hlen _ (by omega)
    have hdrop : (element tag content ++ rest).drop (1 + (lengthBytes content.length).length + content.length) =
      rest := by
      rw [← length_element tag content, List.drop_left]
    obtain ⟨st₁, l₁, stop, h₁, hrest⟩ := h fuel chain (by omega)
    rw [asn1Loop_succ, if_neg (by omega), if_neg (by omega), hgetLen]
    have hhead : (element tag content ++ rest)[0]? = some tag := rfl
    simp only [hhead, Option.bind_some]
    rw [if_neg (by omega), if_neg (by omega), h₁, Option.bind_some, hdrop]
    dsimp only
    cases stop with
    | true => exact ⟨st₁, l₁, false, rfl, hrest⟩
    | false =>
      have hleft : 1 + (lengthBytes content.length).length + content.length + n - 1 -
          (lengthBytes content.length).length - content.length = n := by omega
      rw [hleft]
      exact hrest fuel chain (by omega)

/-- An element that the loop goes on behind. -/
theorem Loops.skip (hpasses : GoesOn tag content) (hsize : n < rest.length) (hl : l.oid.length = 16)
    (h : ∀ st' l', Changes (level + 1) (st.enter level (l.idx + 1)) st' → l'.oid.length = 16 →
      (isField (st.enter level (l.idx + 1)).fields versionId = false → l'.idx = l.idx + 1) →
      Loops env level rest n l' st' P) :
    Loops env level (element tag content ++ rest) ((element tag content).length + n) l st P := by
  refine Loops.head hlen fun fuel chain hfuel => ?_
  have hchild : ChildReads (privateAsn1Parse env fuel) (level + 1) content.length :=
    privateAsn1Parse_reads (fun m hm => asn1Loop_reads env (Nat.lt_of_le_of_lt hm hfuel)) (level + 1)
  have hwhole : 1 + (lengthBytes content.length).length + content.length < (element tag content ++ rest).length := by
    rw [List.length_append, length_element]
    omega
  have hl' : ({ l with idx := l.idx + 1 } : Asn1Locals).oid.length = 16 := hl
  obtain ⟨st', l', stop, hrun, hst, hoid, -, hidx, hstop⟩ :=
    asn1Element_spec hchild env chain tag hwhole hl' (st.enter level (l.idx + 1))
  cases stop with
  | true =>
    obtain ⟨hzero, hprimitive⟩ := hstop rfl
    rcases hpasses with htag | ⟨hcontent, htag⟩
    · exact absurd hzero htag
    · exact absurd hprimitive (by simp [hcontent, htag])
  | false => exact ⟨st', l', false, hrun, h st' l' hst hoid hidx.eq⟩

theorem Loops.primitive (htag : content = [] ∨ tag &&& 0x20 = 0) (h : ∀ child chain, ∃ st' l' stop,
      asn1Primitive env child level chain (tag &&& 0x1F) (content ++ rest) content.length { l with idx := l.idx + 1 }
        (st.enter level (l.idx + 1)) = some (st', l', stop) ∧
      if stop then P st' l' false else Loops env level rest n l' st' P) :
    Loops env level (element tag content ++ rest) ((element tag content).length + n) l st P := by
  refine Loops.head hlen fun fuel chain _ => ?_
  have hprimitive : ¬ (content.length ≠ 0 ∧ tag &&& 0x20 ≠ 0) := by
    rcases htag with rfl | htag
    · simp
    · simp [htag]
  rw [asn1Element, if_neg hprimitive, drop_header]
  exact h _ chain

/-- Nothing is kept of an element but its bytes, of the first one at level 2 for the signature. -/
theorem Loops.constructed (hcontent : content ≠ []) (htag : tag &&& 0x20 ≠ 0)
    (hinside : ∀ bytes, Loops env (level + 1) (content ++ rest) content.length {}
      ((st.enter level (l.idx + 1)).withDer bytes) Q)
    (h : ∀ st' l' ended bytes, Q st' l' ended →
      Loops env level rest n
        { l with
          idx := l.idx + 1
          certData := if tag &&& 0x1F = 0x10 ∧ level = 2 ∧ l.idx + 1 = 1 then element tag content else l.certData }
        ((if ended then asn1Finish env (level + 1) l' st' else st').withDer bytes) P) :
    Loops env level (element tag content ++ rest) ((element tag content).length + n) l st P := by
  refine Loops.head hlen fun fuel chain hfuel => ?_
  have hpos : content.length ≠ 0 := fun h => hcontent (List.eq_nil_of_length_eq_zero h)
  have hder (st : Asn1State) (c : Prop) [Decidable c] (bytes : List UInt8) :
      ∃ b, (if c then st.modify fun cert => { cert with derBytes := bytes } else st) = st.withDer b := by
    split
    · exact ⟨bytes, rfl⟩
    · exact ⟨st.cert.derBytes, rfl⟩
  have hdata (l : Asn1Locals) (c : Prop) [Decidable c] (bytes : List UInt8) :
      (if c then { l with certData := bytes } else l) = { l with certData := if c then bytes else l.certData } := by
    split <;> rfl
  have hbytes : (element tag content ++ rest).take (1 + (lengthBytes content.length).length + content.length) =
      element tag content := by
    rw [← length_element tag content, List.take_left]
  rw [asn1Element, if_pos ⟨hpos, htag⟩, asn1Constructed]
  dsimp only
  rw [drop_header, hbytes]
  obtain ⟨b, hb⟩ := hder (st.enter level (l.idx + 1)) (tag &&& 0x1F = 0x10 ∧
    (st.enter level (l.idx + 1)).cert.version = 0 ∧
    isField (st.enter level (l.idx + 1)).fields privDerId) (element tag content)
  rw [hb, hdata { l with idx := l.idx + 1 } (tag &&& 0x1F = 0x10 ∧ level = 2 ∧ l.idx + 1 = 1) (element tag content)]
  obtain ⟨st', l', ended, hrun, hQ⟩ := privateAsn1Parse_of_loops (hinside b) hfuel (l.oid :: chain)
  rw [hrun]
  simp only [Option.bind_eq_bind, Option.bind_some]
  obtain ⟨b', hb'⟩ := hder (if ended then asn1Finish env (level + 1) l' st' else st')
    (l'.hasKey = true ∧ (¬ env.isServer = true ∨ env.clientCert = true) ∧
      isField (if ended then asn1Finish env (level + 1) l' st' else st').fields pkId = true) (element tag content)
  rw [hb']
  exact ⟨_, _, false, rfl, h st' l' ended b' hQ⟩

end

end CWebServer
