/-
# `Yuva.Wire.Assembler` — putting a chunked body together

`InferAssembler` of `tb-encode/src/inferwire.rs`.  A body longer than one frame
arrives as a sequence of chunks, each under a sub-header that repeats the length
and the digest of the whole body.

    fresh --first chunk--> open --chunk, more--> open --last chunk--> done
      any of these --a chunk that does not fit, or a digest that differs--> poisoned

`InOrder` is what the accepted chunks have in common, `WholeBody` what a finished
sequence is.  `pushAll_spec` relates every run to them.
-/
import Yuva.Hash.Khash
import Yuva.Wire.Frame
import Mathlib.Data.List.Induction

namespace Yuva.Wire

open Yuva.Hash

def INFER_BODY_CAP : Nat := 8192
def INFER_SUBHDR_LEN : Nat := 24
def INFER_CHUNK_CAP : Nat := INFER_PAYLOAD_CAP - INFER_SUBHDR_LEN

/-- The leading sixteen bytes of the unkeyed hash of the body. -/
def bodyDigest (body : List UInt8) : Bytes16 :=
  ⟨(uhash body).val.take 16, by rw [List.length_take, (uhash body).property]; rfl⟩

/-- The sub-header every chunk carries. -/
structure SubHdr where
  seq : BitVec 16
  more : Bool
  totalLen : BitVec 32
  bodyDigest : Bytes16

inductive AsmPush where
  | accepted
  | complete (n : Nat)
  | rejected
deriving DecidableEq, Repr

/-- The live bytes `buf[..len]` and the locked parameters of the sequence. -/
structure InferAssembler (cap : Nat) where
  buf : List UInt8
  nextSeq : BitVec 16
  totalLen : BitVec 32
  digest : Bytes16
  started : Bool
  done : Bool
  poisoned : Bool

/-- A chunk under its sub-header. -/
abbrev Push := SubHdr × List UInt8

/-- The bytes of the chunks, in the order they were pushed. -/
def concat (ps : List Push) : List UInt8 := (ps.map Prod.snd).flatten

namespace InferAssembler

variable {cap : Nat}

def new : InferAssembler cap where
  buf := []
  nextSeq := 0
  totalLen := 0
  digest := ⟨List.replicate 16 0, List.length_replicate⟩
  started := false
  done := false
  poisoned := false

def len (a : InferAssembler cap) : Nat := a.buf.length

def body (a : InferAssembler cap) : List UInt8 := a.buf

def poison (a : InferAssembler cap) : InferAssembler cap := { a with poisoned := true }

/-- Lock the parameters at the first chunk, copy the bytes, move on. -/
def advance (a : InferAssembler cap) (sub : SubHdr) (chunk : List UInt8) : InferAssembler cap :=
  { a with
    buf := a.buf ++ chunk
    nextSeq := a.nextSeq + 1
    totalLen := if a.started then a.totalLen else sub.totalLen
    digest := if a.started then a.digest else sub.bodyDigest
    started := true }

/-- Push one chunk.  `none` is the panic of a store past the end of the array. -/
def pushChunk (a : InferAssembler cap) (sub : SubHdr) (chunk : List UInt8) :
    Option (AsmPush × InferAssembler cap) :=
  if a.poisoned = true ∨ a.done = true then some (.rejected, a)
  else if a.started = false ∧ (sub.seq ≠ 0 ∨ sub.totalLen = 0 ∨
      INFER_BODY_CAP < sub.totalLen.toNat ∨ cap < sub.totalLen.toNat) then some (.rejected, a.poison)
  else if a.started = true ∧ (sub.seq ≠ a.nextSeq ∨ sub.totalLen ≠ a.totalLen ∨
      sub.bodyDigest ≠ a.digest) then some (.rejected, a.poison)
  else if chunk = [] ∨ INFER_CHUNK_CAP < chunk.length then some (.rejected, a.poison)
  else if sub.totalLen.toNat < a.len + chunk.length then some (.rejected, a.poison)
  else if sub.more = true ∧ sub.totalLen.toNat ≤ a.len + chunk.length then
    some (.rejected, a.poison)
  else if sub.more = false ∧ a.len + chunk.length ≠ sub.totalLen.toNat then
    some (.rejected, a.poison)
  else if cap < a.len + chunk.length then none
  else if sub.more = true then some (.accepted, a.advance sub chunk)
  else if bodyDigest (a.buf ++ chunk) ≠ (a.advance sub chunk).digest then
    some (.rejected, (a.advance sub chunk).poison)
  else some (.complete (a.len + chunk.length), { a.advance sub chunk with done := true })

/-- A run of pushes, with the outcome of each. -/
def pushAll (a : InferAssembler cap) : List Push → Option (InferAssembler cap × List AsmPush)
  | [] => some (a, [])
  | p :: ps =>
      match a.pushChunk p.1 p.2 with
      | none => none
      | some (o, a') => (pushAll a' ps).map fun r => (r.1, o :: r.2)

end InferAssembler

/-! ## Chunks in order -/

/-- The pushes carry the sequence numbers from zero, one length and one digest;
no chunk is empty or too long. -/
structure InOrder (ps : List Push) (total : BitVec 32) (digest : Bytes16) : Prop where
  seq : ∀ {i : Nat} {p : Push}, ps[i]? = some p → p.1.seq.toNat = i
  total : ∀ p ∈ ps, p.1.totalLen = total
  digest : ∀ p ∈ ps, p.1.bodyDigest = digest
  chunk : ∀ p ∈ ps, p.2 ≠ [] ∧ p.2.length ≤ INFER_CHUNK_CAP

/-- A finished sequence: in order, `more` set on every chunk but the last, and the
bytes are as many as declared, with the declared digest. -/
structure WholeBody (ps : List Push) (total : BitVec 32) (digest : Bytes16) : Prop where
  inOrder : InOrder ps total digest
  more : ∃ init last, ps = init ++ [last] ∧ last.1.more = false ∧ ∀ p ∈ init, p.1.more = true
  length : (concat ps).length = total.toNat
  digest : bodyDigest (concat ps) = digest

@[simp] theorem concat_nil : concat [] = [] := rfl

@[simp] theorem concat_append (ps qs : List Push) : concat (ps ++ qs) = concat ps ++ concat qs := by
  rw [concat, List.map_append, List.flatten_append]
  rfl

@[simp] theorem concat_singleton (p : Push) : concat [p] = p.2 := List.append_nil _

theorem concat_cons (p : Push) (ps : List Push) : concat (p :: ps) = p.2 ++ concat ps := rfl

theorem InOrder.nil (total : BitVec 32) (digest : Bytes16) : InOrder [] total digest where
  seq := fun h => by cases h
  total := fun p hp => by cases hp
  digest := fun p hp => by cases hp
  chunk := fun p hp => by cases hp

theorem InOrder.of_append {ps qs : List Push} {total : BitVec 32} {digest : Bytes16}
    (h : InOrder (ps ++ qs) total digest) : InOrder ps total digest where
  seq := fun {i p} hi => h.seq (by
    rw [List.getElem?_append_left (List.getElem?_eq_some_iff.mp hi).1]
    exact hi)
  total := fun p hp => h.total p (List.mem_append_left _ hp)
  digest := fun p hp => h.digest p (List.mem_append_left _ hp)
  chunk := fun p hp => h.chunk p (List.mem_append_left _ hp)

theorem inOrder_snoc {ps : List Push} {p : Push} {total : BitVec 32} {digest : Bytes16} :
    InOrder (ps ++ [p]) total digest ↔ InOrder ps total digest ∧ p.1.seq.toNat = ps.length ∧
      p.1.totalLen = total ∧ p.1.bodyDigest = digest ∧ p.2 ≠ [] ∧ p.2.length ≤ INFER_CHUNK_CAP := by
  have hmem : p ∈ ps ++ [p] := List.mem_append_right _ (List.mem_singleton.mpr rfl)
  constructor
  · intro h
    exact ⟨h.of_append, h.seq (by rw [List.getElem?_concat_length]), h.total p hmem, h.digest p hmem,
      h.chunk p hmem⟩
  · rintro ⟨h, hseq, htotal, hdigest, hchunk⟩
    have hlast : ∀ {q : Push}, q ∈ ps ++ [p] → q ∈ ps ∨ q = p := by
      intro q hq
      rwa [List.mem_append, List.mem_singleton] at hq
    refine ⟨?_, ?_, ?_, ?_⟩
    · intro i q hq
      rcases Nat.lt_trichotomy i ps.length with hi | rfl | hi
      · rw [List.getElem?_append_left hi] at hq
        exact h.seq hq
      · rw [List.getElem?_concat_length] at hq
        cases hq
        exact hseq
      · rw [List.getElem?_eq_none (by rw [List.length_append, List.length_singleton]; omega)] at hq
        cases hq
    · intro q hq
      rcases hlast hq with hq | rfl
      · exact h.total q hq
      · exact htotal
    · intro q hq
      rcases hlast hq with hq | rfl
      · exact h.digest q hq
      · exact hdigest
    · intro q hq
      rcases hlast hq with hq | rfl
      · exact h.chunk q hq
      · exact hchunk

/-- No chunk is empty, so there are no more of them than bytes. -/
theorem length_le_concat {ps : List Push} (h : ∀ p ∈ ps, p.2 ≠ []) :
    ps.length ≤ (concat ps).length := by
  induction ps with
  | nil => exact Nat.le_refl 0
  | cons p ps ih =>
      have hp := List.length_pos_iff.mpr (h p List.mem_cons_self)
      have hps := ih fun q hq => h q (List.mem_cons_of_mem _ hq)
      rw [concat_cons, List.length_append, List.length_cons]
      omega

/-- A chunk of a whole body with `more` cleared is the last. -/
theorem WholeBody.last {ps rest : List Push} {p : Push} {total : BitVec 32} {digest : Bytes16}
    (h : WholeBody (ps ++ p :: rest) total digest) : p.1.more = false ↔ rest = [] := by
  obtain ⟨init, last, heq, hlast, hmore⟩ := h.more
  cases rest using List.reverseRecOn with
  | nil =>
      obtain ⟨-, he⟩ := List.append_inj' heq rfl
      cases he
      exact ⟨fun _ => rfl, fun _ => hlast⟩
  | append_singleton rest q =>
      rw [← List.cons_append, ← List.append_assoc] at heq
      obtain ⟨rfl, -⟩ := List.append_inj' heq rfl
      have hp := hmore p (List.mem_append_right _ List.mem_cons_self)
      constructor
      · intro hf
        rw [hp] at hf
        cases hf
      · intro hnil
        exact absurd hnil (List.append_ne_nil_of_right_ne_nil _ (List.cons_ne_nil _ _))

/-- The bounds the first chunk is held to. -/
def Bounded (cap : Nat) (total : BitVec 32) : Prop :=
  total.toNat ≤ INFER_BODY_CAP ∧ total.toNat ≤ cap

namespace InferAssembler

variable {cap : Nat} {ps : List Push} {a : InferAssembler cap} {p : Push}

/-! ## One push -/

/-- The state between the first chunk and the last: what was pushed is a proper
beginning of a body. -/
structure Open (ps : List Push) (a : InferAssembler cap) : Prop where
  live : ¬ (a.poisoned = true ∨ a.done = true)
  buf : a.buf = concat ps
  seq : a.nextSeq.toNat = ps.length
  started : a.started = false ↔ ps = []
  inOrder : InOrder ps a.totalLen a.digest
  more : ∀ q ∈ ps, q.1.more = true
  bound : ps ≠ [] → a.len < a.totalLen.toNat ∧ Bounded cap a.totalLen

theorem open_new : Open [] (new : InferAssembler cap) where
  live := by simp [new]
  buf := rfl
  seq := rfl
  started := by simp [new]
  inOrder := .nil _ _
  more := fun q hq => by cases hq
  bound := fun h => absurd rfl h

/-- The guards of `pushChunk` before anything is stored, all passed. -/
structure Fits (a : InferAssembler cap) (p : Push) : Prop where
  first : a.started = false → p.1.seq = 0 ∧ p.1.totalLen ≠ 0 ∧ Bounded cap p.1.totalLen
  later : a.started = true →
    p.1.seq = a.nextSeq ∧ p.1.totalLen = a.totalLen ∧ p.1.bodyDigest = a.digest
  chunk : p.2 ≠ [] ∧ p.2.length ≤ INFER_CHUNK_CAP
  length : if p.1.more then a.len + p.2.length < p.1.totalLen.toNat
    else a.len + p.2.length = p.1.totalLen.toNat

/-- A push that no guard stops fits. -/
theorem fits_of_guards
    (hfirst : ¬ (a.started = false ∧ (p.1.seq ≠ 0 ∨ p.1.totalLen = 0 ∨
      INFER_BODY_CAP < p.1.totalLen.toNat ∨ cap < p.1.totalLen.toNat)))
    (hlater : ¬ (a.started = true ∧ (p.1.seq ≠ a.nextSeq ∨ p.1.totalLen ≠ a.totalLen ∨
      p.1.bodyDigest ≠ a.digest)))
    (hchunk : ¬ (p.2 = [] ∨ INFER_CHUNK_CAP < p.2.length))
    (hmore : ¬ (p.1.more = true ∧ p.1.totalLen.toNat ≤ a.len + p.2.length))
    (hlast : ¬ (p.1.more = false ∧ a.len + p.2.length ≠ p.1.totalLen.toNat)) : Fits a p := by
  constructor
  · intro hs
    simp only [hs, true_and, not_or, not_not, Nat.not_lt] at hfirst
    exact ⟨hfirst.1, hfirst.2.1, hfirst.2.2.1, hfirst.2.2.2⟩
  · intro hs
    simpa only [hs, true_and, not_or, not_not] using hlater
  · simpa only [not_or, Nat.not_lt] using hchunk
  · cases hm : p.1.more with
    | true =>
        rw [if_pos rfl]
        exact Nat.lt_of_not_le fun hge => hmore ⟨hm, hge⟩
    | false =>
        rw [if_neg Bool.false_ne_true]
        exact not_not.mp fun hne => hlast ⟨hm, hne⟩

theorem pushChunk_of_not_fits (hl : ¬ (a.poisoned = true ∨ a.done = true)) (h : ¬ Fits a p) :
    a.pushChunk p.1 p.2 = some (.rejected, a.poison) := by
  rw [pushChunk, if_neg hl]
  -- each of the six guards rejects; past them the push fits
  apply ite_eq_left_iff.mpr
  intro hfirst
  apply ite_eq_left_iff.mpr
  intro hlater
  apply ite_eq_left_iff.mpr
  intro hchunk
  apply ite_eq_left_iff.mpr
  intro _
  apply ite_eq_left_iff.mpr
  intro hmore
  apply ite_eq_left_iff.mpr
  intro hlast
  exact absurd (fits_of_guards hfirst hlater hchunk hmore hlast) h

theorem pushChunk_of_fits (hl : ¬ (a.poisoned = true ∨ a.done = true)) (h : Fits a p)
    (hcap : p.1.totalLen.toNat ≤ cap) :
    a.pushChunk p.1 p.2 =
      if p.1.more = true then some (.accepted, a.advance p.1 p.2)
      else if bodyDigest (a.buf ++ p.2) ≠ (a.advance p.1 p.2).digest then
        some (.rejected, (a.advance p.1 p.2).poison)
      else some (.complete (a.len + p.2.length), { a.advance p.1 p.2 with done := true }) := by
  have hle : a.len + p.2.length ≤ p.1.totalLen.toNat := by
    have hlen := h.length
    split at hlen <;> omega
  rw [pushChunk, if_neg hl, if_neg, if_neg, if_neg, if_neg (Nat.not_lt.mpr hle), if_neg, if_neg,
    if_neg (Nat.not_lt.mpr (Nat.le_trans hle hcap))]
  · rintro ⟨hm, hne⟩
    have hlen := h.length
    rw [hm] at hlen
    exact hne hlen
  · rintro ⟨hm, hge⟩
    have hlen := h.length
    rw [hm] at hlen
    exact absurd hlen (Nat.not_lt.mpr hge)
  · rintro (hnil | hlong)
    · exact h.chunk.1 hnil
    · exact Nat.not_lt.mpr h.chunk.2 hlong
  · rintro ⟨hs, hdrift⟩
    obtain ⟨hseq, htotal, hdigest⟩ := h.later hs
    rcases hdrift with hne | hne | hne
    · exact hne hseq
    · exact hne htotal
    · exact hne hdigest
  · rintro ⟨hs, hbad⟩
    obtain ⟨hseq, hzero, hbody, hroom⟩ := h.first hs
    rcases hbad with hne | hz | hb | hc
    · exact hne hseq
    · exact hzero hz
    · exact Nat.not_lt.mpr hbody hb
    · exact Nat.not_lt.mpr hroom hc

/-- After the guards the locked parameters are those of the chunk. -/
theorem Fits.locked (h : Fits a p) : (a.advance p.1 p.2).totalLen = p.1.totalLen ∧
    (a.advance p.1 p.2).digest = p.1.bodyDigest := by
  cases hs : a.started with
  | false => simp only [advance, hs, Bool.false_eq_true, if_false, and_self]
  | true =>
      obtain ⟨-, htotal, hdigest⟩ := h.later hs
      simp only [advance, hs, if_true, htotal, hdigest, and_self]

/-- In an open state the guards say that the chunk continues the sequence. -/
theorem Open.fits_iff (ho : Open ps a) : Fits a p ↔
    InOrder (ps ++ [p]) p.1.totalLen p.1.bodyDigest ∧ Bounded cap p.1.totalLen ∧
      if p.1.more then (concat (ps ++ [p])).length < p.1.totalLen.toNat
      else (concat (ps ++ [p])).length = p.1.totalLen.toNat := by
  have hlen : (concat (ps ++ [p])).length = a.len + p.2.length := by
    rw [concat_append, concat_singleton, List.length_append, len, ho.buf]
  rw [inOrder_snoc, hlen]
  constructor
  · rintro ⟨hfirst, hlater, hchunk, hlength⟩
    cases hs : a.started with
    | false =>
        obtain rfl := ho.started.mp hs
        obtain ⟨hseq, -, hbound⟩ := hfirst hs
        exact ⟨⟨.nil _ _, by rw [hseq]; rfl, rfl, rfl, hchunk⟩, hbound, hlength⟩
    | true =>
        obtain ⟨hseq, htotal, hdigest⟩ := hlater hs
        have hne : ps ≠ [] := fun hnil => by
          rw [ho.started.mpr hnil] at hs
          cases hs
        refine ⟨⟨?_, by rw [hseq, ho.seq], rfl, rfl, hchunk⟩, ?_, hlength⟩
        · rw [htotal, hdigest]
          exact ho.inOrder
        · rw [htotal]
          exact (ho.bound hne).2
  · rintro ⟨⟨hin, hseq, -, -, hchunk⟩, hbound, hlength⟩
    refine ⟨?_, ?_, hchunk, hlength⟩
    · intro hs
      obtain rfl := ho.started.mp hs
      refine ⟨BitVec.eq_of_toNat_eq hseq, ?_, hbound⟩
      -- a declared length of zero leaves no room for a chunk
      intro hzero
      have hpos := List.length_pos_iff.mpr hchunk.1
      rw [hzero] at hlength
      split at hlength <;> simp only [BitVec.ofNat_eq_ofNat, BitVec.toNat_ofNat] at hlength <;> omega
    · intro hs
      cases ps with
      | nil =>
          rw [ho.started.mpr rfl] at hs
          cases hs
      | cons q qs =>
          have htotal := (hin.total q List.mem_cons_self).symm.trans (ho.inOrder.total q List.mem_cons_self)
          have hdigest :=
            (hin.digest q List.mem_cons_self).symm.trans (ho.inOrder.digest q List.mem_cons_self)
          exact ⟨BitVec.eq_of_toNat_eq (hseq.trans ho.seq.symm), htotal, hdigest⟩

/-- The pushes are a whole body of `n` bytes within the bounds. -/
def Delivered (cap : Nat) (ps : List Push) (n : Nat) : Prop :=
  ∃ total digest, WholeBody ps total digest ∧ Bounded cap total ∧ n = total.toNat

/-- Every chunk of a body continues what was pushed before it. -/
theorem Open.fits_of_delivered (ho : Open ps a) {rest : List Push} {n : Nat}
    (h : Delivered cap (ps ++ p :: rest) n) : Fits a p := by
  obtain ⟨total, digest, hw, hb, -⟩ := h
  have hsplit : ps ++ p :: rest = (ps ++ [p]) ++ rest := by
    rw [List.append_assoc, List.singleton_append]
  have hin : InOrder (ps ++ [p]) total digest := (hsplit ▸ hw.inOrder).of_append
  obtain ⟨-, -, rfl, rfl, -⟩ := inOrder_snoc.mp hin
  refine ho.fits_iff.mpr ⟨hin, hb, ?_⟩
  have hlen := hw.length
  rw [hsplit, concat_append, List.length_append] at hlen
  cases hm : p.1.more with
  | false =>
      rw [hw.last.mp hm, concat_nil, List.length_nil, Nat.add_zero] at hlen
      exact hlen
  | true =>
      -- another chunk follows, and it is not empty
      cases rest with
      | nil =>
          have hf := hw.last.mpr rfl
          rw [hm] at hf
          cases hf
      | cons q rest =>
          have hq := (hw.inOrder.chunk q
            (List.mem_append_right _ (List.mem_cons_of_mem _ List.mem_cons_self))).1
          have hpos := List.length_pos_iff.mpr hq
          rw [concat_cons, List.length_append] at hlen
          simp only [if_true]
          omega

theorem Open.advance (ho : Open ps a) (h : Fits a p) (hm : p.1.more = true) :
    Open (ps ++ [p]) (a.advance p.1 p.2) := by
  obtain ⟨hin, hbound, hlen⟩ := ho.fits_iff.mp h
  obtain ⟨htotal, hdigest⟩ := h.locked
  rw [hm, if_pos rfl] at hlen
  have hbuf : (a.advance p.1 p.2).buf = concat (ps ++ [p]) := by
    rw [concat_append, concat_singleton, ← ho.buf]
    rfl
  refine ⟨ho.live, hbuf, ?_, ?_, ?_, ?_, ?_⟩
  · -- fewer chunks than bytes, and fewer bytes than 2 ^ 13, so the counter does not wrap
    have hle := length_le_concat (fun q hq => (hin.chunk q hq).1)
    have hcap : p.1.totalLen.toNat ≤ 8192 := hbound.1
    rw [List.length_append, List.length_singleton] at hle ⊢
    have hseq : (a.advance p.1 p.2).nextSeq = a.nextSeq + 1 := rfl
    rw [hseq, BitVec.toNat_add, ho.seq]
    exact Nat.mod_eq_of_lt (by simp only [BitVec.ofNat_eq_ofNat, BitVec.toNat_ofNat]; omega)
  · simp [InferAssembler.advance]
  · rw [htotal, hdigest]
    exact hin
  · intro q hq
    rcases List.mem_append.mp hq with hq | hq
    · exact ho.more q hq
    · rw [List.mem_singleton.mp hq]
      exact hm
  · intro _
    rw [htotal, len, hbuf]
    exact ⟨hlen, hbound⟩

theorem Open.len_le (ho : Open ps a) : a.len ≤ cap := by
  by_cases hnil : ps = []
  · rw [len, ho.buf, hnil]
    exact Nat.zero_le cap
  · obtain ⟨hlt, -, hcap⟩ := ho.bound hnil
    omega

/-- What one push does to an open state. -/
theorem Open.push_cases (ho : Open ps a) (p : Push) : ∃ o a', a.pushChunk p.1 p.2 = some (o, a') ∧
    (o = .accepted ∧ Open (ps ++ [p]) a' ∨
      (∃ n, o = .complete n ∧ Delivered cap (ps ++ [p]) n ∧ a'.done = true ∧
        a'.buf = concat (ps ++ [p]) ∧ a'.len ≤ cap) ∨
      o = .rejected ∧ a'.poisoned = true ∧ a'.len ≤ cap ∧
        ∀ rest n, ¬ Delivered cap (ps ++ p :: rest) n) := by
  by_cases h : Fits a p
  · obtain ⟨hin, hbound, hlen⟩ := ho.fits_iff.mp h
    have hpush := pushChunk_of_fits ho.live h hbound.2
    have hbuf : a.buf ++ p.2 = concat (ps ++ [p]) := by
      rw [concat_append, concat_singleton, ho.buf]
    have hsum : a.len + p.2.length = (concat (ps ++ [p])).length := by
      rw [← hbuf, List.length_append]
      rfl
    rw [h.locked.2, hbuf, hsum] at hpush
    cases hm : p.1.more with
    | true =>
        rw [if_pos hm] at hpush
        exact ⟨_, _, hpush, .inl ⟨rfl, ho.advance h hm⟩⟩
    | false =>
        rw [hm, if_neg Bool.noConfusion] at hlen
        rw [if_neg (by rw [hm]; exact Bool.noConfusion)] at hpush
        have hroom : (a.buf ++ p.2).length ≤ cap := by
          rw [hbuf, hlen]
          exact hbound.2
        by_cases hd : bodyDigest (concat (ps ++ [p])) = p.1.bodyDigest
        · rw [if_neg (not_not.mpr hd)] at hpush
          refine ⟨_, _, hpush, .inr (.inl ⟨_, rfl, ?_, rfl, hbuf, hroom⟩)⟩
          exact ⟨_, _, ⟨hin, ⟨ps, p, rfl, hm, ho.more⟩, hlen, hd⟩, hbound, hlen⟩
        · rw [if_pos hd] at hpush
          refine ⟨_, _, hpush, .inr (.inr ⟨rfl, rfl, hroom, ?_⟩)⟩
          rintro rest n ⟨total, digest, hw, -, -⟩
          obtain rfl := hw.last.mp hm
          have hpd := (inOrder_snoc.mp hw.inOrder).2.2.2.1
          exact hd (hw.digest.trans hpd.symm)
  · refine ⟨_, _, pushChunk_of_not_fits ho.live h, .inr (.inr ⟨rfl, rfl, ho.len_le, ?_⟩)⟩
    intro rest n hdel
    exact h (ho.fits_of_delivered hdel)

/-! ## A run of pushes -/

/-- Nothing moves a finished or poisoned assembler. -/
theorem pushAll_dead (h : a.poisoned = true ∨ a.done = true) (qs : List Push) :
    a.pushAll qs = some (a, List.replicate qs.length .rejected) := by
  induction qs with
  | nil => rfl
  | cons q qs ih =>
      simp only [pushAll, pushChunk, if_pos h, ih, Option.map_some, List.length_cons,
        List.replicate_succ]

theorem Delivered.length {n : Nat} (h : Delivered cap ps n) : n = (concat ps).length := by
  obtain ⟨total, digest, hw, -, rfl⟩ := h
  exact hw.length.symm

/-- An open sequence waits for more. -/
theorem Open.not_delivered (ho : Open ps a) (n : Nat) : ¬ Delivered cap ps n := by
  rintro ⟨total, digest, hw, -, -⟩
  obtain ⟨init, last, rfl, hlast, -⟩ := hw.more
  have hm := ho.more last (List.mem_append_right _ (List.mem_singleton.mpr rfl))
  rw [hlast] at hm
  cases hm

theorem Delivered.ends {rest : List Push} {n m : Nat} (h : Delivered cap (ps ++ [p]) n)
    (h' : Delivered cap (ps ++ p :: rest) m) : rest = [] := by
  obtain ⟨_, _, hw, -, -⟩ := h
  obtain ⟨_, _, hw', -, -⟩ := h'
  exact hw'.last.mp (hw.last.mpr rfl)

/-- What the outcomes of the pushes `qs` say, behind the open sequence `ps`. -/
structure Outcome (ps qs : List Push) (a' : InferAssembler cap) (outs : List AsmPush) : Prop where
  length : outs.length = qs.length
  len_le : a'.len ≤ cap
  complete_iff : ∀ n, outs.getLast? = some (AsmPush.complete n) ↔
    qs ≠ [] ∧ Delivered cap (ps ++ qs) n
  body : ∀ n, outs.getLast? = some (AsmPush.complete n) → a'.body = concat (ps ++ qs)
  rejected : ∀ i j n : Nat, outs[i]? = some AsmPush.rejected → i < j →
    outs[j]? ≠ some (AsmPush.complete n)

theorem Outcome.accepted {a' a₁ : InferAssembler cap} {qs : List Push} {outs : List AsmPush}
    (ho : Open (ps ++ [p]) a₁) (h : Outcome (ps ++ [p]) qs a' outs) :
    Outcome ps (p :: qs) a' (.accepted :: outs) := by
  have hsplit : ps ++ p :: qs = ps ++ [p] ++ qs := by
    rw [List.append_assoc, List.singleton_append]
  have hlast : ∀ n, (AsmPush.accepted :: outs).getLast? = some (.complete n) ↔
      outs.getLast? = some (.complete n) := by
    intro n
    rw [List.getLast?_cons]
    cases outs.getLast? <;> simp
  refine ⟨congrArg (· + 1) h.length, h.len_le, ?_, ?_, ?_⟩
  · intro n
    rw [hlast, h.complete_iff, hsplit]
    constructor
    · rintro ⟨-, hdel⟩
      exact ⟨List.cons_ne_nil _ _, hdel⟩
    · rintro ⟨-, hdel⟩
      refine ⟨fun hnil => ho.not_delivered n ?_, hdel⟩
      rwa [hnil, List.append_nil] at hdel
  · intro n hn
    rw [hsplit]
    exact h.body n ((hlast n).mp hn)
  · intro i j n hi hij
    cases i with
    | zero => cases hi
    | succ i =>
        cases j with
        | zero => cases hij
        | succ j => exact h.rejected i j n hi (Nat.lt_of_succ_lt_succ hij)

/-- The outcomes once a push has ended the sequence. -/
theorem Outcome.dead {a' : InferAssembler cap} {o : AsmPush} (qs : List Push)
    (hle : a'.len ≤ cap) (ho : ∀ n, o = .complete n → a'.body = concat (ps ++ [p]))
    (hiff : ∀ rest n, Delivered cap (ps ++ p :: rest) n ↔ rest = [] ∧ o = .complete n) :
    Outcome ps (p :: qs) a' (o :: List.replicate qs.length .rejected) := by
  have hlast : ∀ n, (o :: List.replicate qs.length AsmPush.rejected).getLast? =
      some (.complete n) ↔ qs = [] ∧ o = .complete n := by
    intro n
    cases qs with
    | nil => simp
    | cons q qs => simp [List.getLast?_cons, List.getLast?_replicate]
  refine ⟨by rw [List.length_cons, List.length_replicate, List.length_cons], hle, ?_, ?_, ?_⟩
  · intro n
    rw [hlast, hiff]
    exact ⟨fun h => ⟨List.cons_ne_nil _ _, h⟩, fun h => h.2⟩
  · intro n hn
    obtain ⟨rfl, hc⟩ := (hlast n).mp hn
    exact ho n hc
  · intro i j n _ hij
    cases j with
    | zero => cases hij
    | succ j =>
        rw [List.getElem?_cons_succ, List.getElem?_replicate]
        split <;> simp

theorem Open.pushAll_spec (qs : List Push) : ∀ {ps : List Push} {a : InferAssembler cap},
    Open ps a → ∃ a' outs, a.pushAll qs = some (a', outs) ∧ Outcome ps qs a' outs := by
  induction qs with
  | nil =>
      intro ps a ho
      exact ⟨a, [], rfl, rfl, ho.len_le, by simp, by simp, by simp⟩
  | cons p qs ih =>
      intro ps a ho
      obtain ⟨o, a₁, hpush, hcase⟩ := ho.push_cases p
      rcases hcase with ⟨rfl, ho₁⟩ | ⟨n, rfl, hdel, hdone, hbuf, hle⟩ | ⟨rfl, hpois, hle, hno⟩
      · obtain ⟨a', outs, hrun, hout⟩ := ih ho₁
        exact ⟨a', _, by simp only [pushAll, hpush, hrun, Option.map_some], hout.accepted ho₁⟩
      · refine ⟨a₁, .complete n :: List.replicate qs.length .rejected, ?_, ?_⟩
        · simp only [pushAll, hpush, pushAll_dead (.inr hdone) qs, Option.map_some]
        refine Outcome.dead qs hle (fun _ _ => hbuf) ?_
        intro rest m
        constructor
        · intro hdel'
          obtain rfl := hdel.ends hdel'
          exact ⟨rfl, by rw [hdel.length, hdel'.length]⟩
        · rintro ⟨rfl, hm⟩
          cases hm
          exact hdel
      · refine ⟨a₁, .rejected :: List.replicate qs.length .rejected, ?_, ?_⟩
        · simp only [pushAll, hpush, pushAll_dead (.inl hpois) qs, Option.map_some]
        refine Outcome.dead qs hle (fun _ hc => by cases hc) ?_
        intro rest m
        exact ⟨fun hdel => absurd hdel (hno rest m), fun h => by cases h.2⟩

/-- The assembler never stores past its array; its last outcome is `complete`
exactly on a whole body within the bounds, and then it holds that body; and no
`complete` follows a `rejected`. -/
theorem assembles_whole_body (cap : Nat) (ps : List Push) :
    ∃ (a : InferAssembler cap) (outs : List AsmPush), new.pushAll ps = some (a, outs) ∧
      a.len ≤ cap ∧ outs.length = ps.length ∧
      (∀ n, outs.getLast? = some (.complete n) ↔ ∃ total digest, WholeBody ps total digest ∧
        total.toNat ≤ INFER_BODY_CAP ∧ total.toNat ≤ cap ∧ n = total.toNat) ∧
      (∀ n, outs.getLast? = some (.complete n) → a.body = concat ps) ∧
      ∀ i j n : Nat, outs[i]? = some .rejected → i < j → outs[j]? ≠ some (.complete n) := by
  obtain ⟨a, outs, hrun, hout⟩ := Open.pushAll_spec ps (@open_new cap)
  refine ⟨a, outs, hrun, hout.len_le, hout.length, ?_, hout.body, hout.rejected⟩
  intro n
  rw [hout.complete_iff]
  constructor
  · rintro ⟨-, total, digest, hw, ⟨hbody, hcap⟩, hn⟩
    exact ⟨total, digest, hw, hbody, hcap, hn⟩
  · rintro ⟨total, digest, hw, hbody, hcap, hn⟩
    refine ⟨?_, total, digest, hw, ⟨hbody, hcap⟩, hn⟩
    rintro rfl
    obtain ⟨init, last, hnil, -⟩ := hw.more
    exact absurd hnil.symm (List.append_ne_nil_of_right_ne_nil _ (List.cons_ne_nil _ _))

/-- A body of 257 bytes in one chunk, under its own digest. -/
def longBody : List Push := [(⟨0, false, 257, bodyDigest (List.replicate 257 0)⟩, List.replicate 257 0)]

/-- An assembler of 256 bytes refuses it. -/
theorem longBody_refused :
    WholeBody longBody 257 (bodyDigest (List.replicate 257 0)) ∧
      ((new : InferAssembler 256).pushAll longBody).map Prod.snd = some [.rejected] := by
  have hbytes : concat longBody = List.replicate 257 0 := List.append_nil _
  have hin : InOrder longBody 257 (bodyDigest (List.replicate 257 0)) :=
    inOrder_snoc.mpr ⟨.nil _ _, rfl, rfl, rfl, List.cons_ne_nil _ _,
      Nat.le_trans (Nat.le_of_eq List.length_replicate) (by decide)⟩
  have hpush : ∀ chunk : List UInt8, (new : InferAssembler 256).pushChunk
      ⟨0, false, 257, bodyDigest (List.replicate 257 0)⟩ chunk = some (.rejected, new.poison) := by
    intro chunk
    rw [pushChunk, if_neg open_new.live, if_pos ⟨rfl, .inr (.inr (.inr (by decide)))⟩]
  refine ⟨⟨hin, ⟨[], _, rfl, rfl, fun p hp => by cases hp⟩, ?_, ?_⟩, ?_⟩
  · rw [hbytes, List.length_replicate]
    rfl
  · rw [hbytes]
  · simp only [longBody, pushAll, hpush, Option.map_some]

end InferAssembler

end Yuva.Wire
