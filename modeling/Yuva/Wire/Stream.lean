/-
# `Yuva.Wire.Stream` — what the receive loop emits

The receive loop holds a bounded buffer and sees one byte at a time.  Beside it
stands a parser that sees the whole stream and states what the loop is for:

    pump            `FrameAccum`, byte by byte
    frames          the frames the loop's look cuts out of the stream
    referenceParse  from left to right, the first position with a valid header

All three agree on every stream, and on the encodings of a list of frames behind
a garbage prefix without the magic they give back the list.
-/
import Yuva.Wire.Accum
import Mathlib.Data.List.Infix

namespace Yuva.Wire

open Yuva.Bytes
open Yuva.Resync

/-! ## The reference parser -/

instance (buf : List UInt8) : Decidable (ValidHeader buf) :=
  decidable_of_iff (INFER_HEADER_LEN ≤ buf.length ∧ unle (slice buf OFF_MAGIC 2) = INFER_MAGIC ∧
      buf.getD OFF_VER 0 = INFER_VER ∧ buf.getD OFF_FLAGS 0 = 0 ∧
      kindKnown (buf.getD OFF_KIND 0) = true ∧ frameIsEncodable (payloadLen buf) = true)
    ⟨fun ⟨h₁, h₂, h₃, h₄, h₅, h₆⟩ => ⟨h₁, h₂, h₃, h₄, h₅, h₆⟩,
      fun ⟨h₁, h₂, h₃, h₄, h₅, h₆⟩ => ⟨h₁, h₂, h₃, h₄, h₅, h₆⟩⟩

/-- The frames of a whole stream: from left to right, the first position that
holds a valid header, and the length it declares. -/
def referenceParse (s : List UInt8) : List InferFrame :=
  match s with
  | [] => []
  | b :: rest =>
      if ValidHeader (b :: rest) then
        match decode ((b :: rest).take (canonLen (payloadLen (b :: rest)))) with
        | some f => f :: referenceParse ((b :: rest).drop (canonLen (payloadLen (b :: rest))))
        | none => []
      else referenceParse rest
termination_by s.length
decreasing_by
  · rw [List.length_drop, canonLen, INFER_HEADER_LEN, List.length_cons]
    omega
  · exact Nat.lt_succ_self _

/-! ## The header, byte by byte -/

theorem unle_magic_iff {a b : UInt8} :
    unle [a, b] = INFER_MAGIC ↔ a = MAGIC_LO ∧ b = MAGIC_HI := by
  have ha := a.toNat_lt
  have hb := b.toNat_lt
  simp only [unle, INFER_MAGIC, MAGIC_LO, MAGIC_HI, ← UInt8.toNat_inj, UInt8.reduceToNat]
  omega

theorem badFront_iff {buf : List UInt8} (hlen : INFER_HEADER_LEN ≤ buf.length) :
    badFront buf = false ↔ unle (slice buf OFF_MAGIC 2) = INFER_MAGIC ∧
      buf.getD OFF_VER 0 = INFER_VER ∧ kindKnown (buf.getD OFF_KIND 0) = true ∧
      buf.getD OFF_FLAGS 0 = 0 := by
  rcases buf with _ | ⟨a, _ | ⟨b, _ | ⟨c, _ | ⟨d, _ | ⟨e, rest⟩⟩⟩⟩⟩
  · simp [INFER_HEADER_LEN] at hlen
  · simp [INFER_HEADER_LEN] at hlen
  · simp [INFER_HEADER_LEN] at hlen
  · simp [INFER_HEADER_LEN] at hlen
  · simp [INFER_HEADER_LEN] at hlen
  · have hm : slice (a :: b :: c :: d :: e :: rest) OFF_MAGIC 2 = [a, b] := rfl
    rw [hm, unle_magic_iff]
    simp [badFront, arrivedBad, OFF_VER, OFF_KIND, OFF_FLAGS, and_assoc]

/-- A header is valid exactly when it is complete and nothing in it is refuted. -/
theorem validHeader_iff {buf : List UInt8} : ValidHeader buf ↔
    INFER_HEADER_LEN ≤ buf.length ∧ badFront buf = false ∧ payloadLen buf ≤ INFER_PAYLOAD_CAP := by
  constructor
  · rintro ⟨hlen, hmagic, hver, hflags, hkind, henc⟩
    exact ⟨hlen, (badFront_iff hlen).mpr ⟨hmagic, hver, hkind, hflags⟩, of_decide_eq_true henc⟩
  · rintro ⟨hlen, hgood, hcap⟩
    obtain ⟨hmagic, hver, hkind, hflags⟩ := (badFront_iff hlen).mp hgood
    exact ⟨hlen, hmagic, hver, hflags, hkind, decide_eq_true hcap⟩

theorem validHeader_append_iff {buf : List UInt8} (s : List UInt8)
    (hlen : INFER_HEADER_LEN ≤ buf.length) : ValidHeader (buf ++ s) ↔ ValidHeader buf := by
  rw [validHeader_iff, validHeader_iff, badFront_append_of_header s hlen, payloadLen_append s hlen,
    List.length_append]
  constructor
  · rintro ⟨-, h⟩
    exact ⟨hlen, h⟩
  · rintro ⟨-, h⟩
    exact ⟨Nat.le_add_right_of_le hlen, h⟩

/-! ## The reference parser and the look of the loop -/

theorem referenceParse_of_invalid {b : UInt8} {s : List UInt8} (h : ¬ ValidHeader (b :: s)) :
    referenceParse (b :: s) = referenceParse s := by
  rw [referenceParse, if_neg h]

/-- Behind a valid header the declared length decodes exactly when it is there. -/
theorem decode_take_isSome_iff {s : List UInt8} (hv : ValidHeader s) :
    (decode (s.take (canonLen (payloadLen s)))).isSome ↔ canonLen (payloadLen s) ≤ s.length := by
  have hsplit := List.take_append_drop (canonLen (payloadLen s)) s
  have hhead : INFER_HEADER_LEN ≤ (s.take (canonLen (payloadLen s))).length := by
    have hlen := hv.length
    rw [List.length_take, canonLen]
    omega
  have hpay : payloadLen (s.take (canonLen (payloadLen s))) = payloadLen s := by
    conv_rhs => rw [← hsplit]
    exact (payloadLen_append _ hhead).symm
  constructor
  · intro h
    obtain ⟨f, hf⟩ := Option.isSome_iff_exists.mp h
    have hfull := (valid_of_decode hf).2
    rw [hpay] at hfull
    exact Nat.le_trans hfull (List.length_take_le' _ _)
  · intro h
    have hv' : ValidHeader (s.take (canonLen (payloadLen s))) :=
      (validHeader_append_iff _ hhead).mp (by rwa [hsplit])
    rw [decode_of_valid hv' (by rw [hpay, List.length_take_of_le h, canonLen])]
    rfl

theorem look_of_valid {s : List UInt8} (hv : ValidHeader s) :
    look s = if canonLen (payloadLen s) ≤ s.length then .whole (canonLen (payloadLen s))
      else .pending := by
  obtain ⟨hlen, hgood, hcap⟩ := validHeader_iff.mp hv
  split
  · rename_i h
    exact look_whole_iff.mpr ⟨hgood, hlen, hcap, rfl, h⟩
  · rename_i h
    exact look_pending_iff.mpr ⟨hgood, .inr ⟨hcap, Nat.lt_of_not_le h⟩⟩

/-- A complete front that is no valid header is refuted. -/
theorem look_of_invalid {s : List UInt8} (hlen : INFER_HEADER_LEN ≤ s.length)
    (hv : ¬ ValidHeader s) : look s = .refuted := by
  refine look_refuted_iff.mpr ?_
  cases hbad : badFront s with
  | true => exact .inl rfl
  | false =>
      refine .inr ⟨hlen, Nat.lt_of_not_le fun hcap => ?_⟩
      exact hv (validHeader_iff.mpr ⟨hlen, hbad, hcap⟩)

theorem frames_short {s : List UInt8} (h : s.length < INFER_HEADER_LEN) :
    framing.frames s = [] := by
  induction s with
  | nil => exact framing.frames_pending framing.look_nil
  | cons b s ih =>
      cases hl : framing.look (b :: s) with
      | refuted =>
          rw [framing.frames_refuted hl]
          exact ih (Nat.lt_of_succ_lt h)
      | pending => exact framing.frames_pending hl
      | whole n =>
          obtain ⟨hle, hn⟩ := framing.whole_bounds hl
          exact absurd (Nat.le_trans hle hn) (Nat.not_le.mpr h)

/-- The reference parser finds the frames the look cuts out. -/
theorem referenceParse_eq (s : List UInt8) :
    (referenceParse s).map some = (framing.frames s).map decode := by
  fun_induction referenceParse s with
  | case1 => rw [framing.frames_pending framing.look_nil]; rfl
  | case2 b rest hv f hf ih =>
      have hfull := (decode_take_isSome_iff hv).mp (by rw [hf]; rfl)
      have hl := look_of_valid hv
      rw [if_pos hfull] at hl
      rw [framing.frames_whole hl, List.map_cons, List.map_cons, ih, hf]
  | case3 b rest hv hf =>
      have hopen : ¬ canonLen (payloadLen (b :: rest)) ≤ (b :: rest).length := by
        intro hfull
        have hsome := (decode_take_isSome_iff hv).mpr hfull
        rw [hf] at hsome
        cases hsome
      have hl := look_of_valid hv
      rw [if_neg hopen] at hl
      rw [framing.frames_pending hl]
      rfl
  | case4 b rest hv ih =>
      rw [ih]
      by_cases hlen : INFER_HEADER_LEN ≤ (b :: rest).length
      · rw [framing.frames_refuted (look_of_invalid hlen hv)]
      · have hlt := Nat.lt_of_not_le hlen
        rw [frames_short hlt, frames_short (Nat.lt_of_succ_lt hlt)]

/-! ## Encoded frames behind garbage -/

/-- The two magic bytes stand nowhere side by side. -/
def MagicFree (g : List UInt8) : Prop := ¬ [MAGIC_LO, MAGIC_HI] <:+: g

instance (g : List UInt8) : Decidable (MagicFree g) :=
  inferInstanceAs (Decidable (¬ [MAGIC_LO, MAGIC_HI] <:+: g))

theorem referenceParse_encode {f : InferFrame} (s : List UInt8) (h : Encodable f) :
    referenceParse (encode f ++ s) = f :: referenceParse s := by
  have hv := validHeader_encode s h
  have hlen : canonLen (payloadLen (encode f ++ s)) = (encode f).length := by
    rw [payloadLen_encode s h, length_encode]
  have hdec : decode (encode f) = some f := by
    have := decode_encode [] h
    rwa [List.append_nil] at this
  cases hs : encode f ++ s with
  | nil =>
      rw [hs] at hv
      exact absurd hv.length (by decide)
  | cons b rest =>
      rw [referenceParse, ← hs, if_pos hv, hlen, List.take_left, List.drop_left, hdec]

theorem referenceParse_encodes {fs : List InferFrame} (h : ∀ f ∈ fs, Encodable f) :
    referenceParse (fs.map encode).flatten = fs := by
  induction fs with
  | nil => rw [List.map_nil, List.flatten_nil, referenceParse]
  | cons f fs ih =>
      rw [List.map_cons, List.flatten_cons, referenceParse_encode _ (h f List.mem_cons_self),
        ih fun f' hf' => h f' (List.mem_cons_of_mem _ hf')]

/-- No header starts inside a prefix without the magic, nor across its end into
bytes that do not begin with the second magic byte. -/
theorem referenceParse_garbage {g w : List UInt8} (hg : MagicFree g)
    (hw : w.head? ≠ some MAGIC_HI) : referenceParse (g ++ w) = referenceParse w := by
  induction g with
  | nil => rfl
  | cons b g ih =>
      have hfree : MagicFree g := fun hin => hg (hin.trans (List.suffix_cons b g).isInfix)
      have hinv : ¬ ValidHeader (b :: (g ++ w)) := by
        intro hv
        cases hs : g ++ w with
        | nil =>
            rw [hs] at hv
            exact absurd hv.length (by simp [INFER_HEADER_LEN])
        | cons c rest =>
            rw [hs] at hv
            obtain ⟨rfl, rfl⟩ := unle_magic_iff.mp hv.magic
            cases g with
            | nil =>
                rw [List.nil_append] at hs
                exact hw (by rw [hs, List.head?_cons])
            | cons c' g =>
                obtain ⟨rfl, -⟩ := List.cons.inj hs
                exact hg ⟨[], g, rfl⟩
      rw [List.cons_append, referenceParse_of_invalid hinv, ih hfree]

/-- The encodings of frames begin with the first magic byte, if with anything. -/
theorem head_encodes (fs : List InferFrame) : (fs.map encode).flatten.head? ≠ some MAGIC_HI := by
  cases fs with
  | nil => simp
  | cons f fs =>
      have hhead : ((f :: fs).map encode).flatten.head? = some MAGIC_LO := rfl
      rw [hhead]
      decide

/-- A field of sixteen zero bytes. -/
def zero16 : Bytes16 := ⟨List.replicate 16 0, rfl⟩

def emptyEchoReq : InferFrame := ⟨1, 7, zero16, zero16, 0, zero16, []⟩

theorem pump_referenceParse {cap : Nat} (hcap : INFER_ACCUM_CAP ≤ cap) (s : List UInt8) :
    ∃ acc : FrameAccum cap,
      FrameAccum.new.pump s = some (acc, (referenceParse s).map some) ∧ acc.len ≤ cap := by
  obtain ⟨acc, hacc, hopen⟩ := @FrameAccum.pump_eq _ hcap s FrameAccum.new framing.look_nil
  refine ⟨acc, ?_, Nat.le_trans (Nat.le_of_lt (look_pending_lt hopen)) hcap⟩
  rw [hacc, referenceParse_eq]
  rfl

/-- On every stream the loop emits what the reference parser does and never
overflows; behind a magic-free prefix it emits exactly the frames encoded. -/
theorem pump_resynchronises {cap : Nat} (hcap : INFER_ACCUM_CAP ≤ cap) :
    (∀ s : List UInt8, ∃ acc : FrameAccum cap,
      FrameAccum.new.pump s = some (acc, (referenceParse s).map some) ∧ acc.len ≤ cap) ∧
    ∀ (g : List UInt8) (fs : List (InferFrame × List UInt8)), MagicFree g →
      (∀ p ∈ fs, CanonEncoded p.1 p.2) → ∃ acc : FrameAccum cap,
        FrameAccum.new.pump (g ++ (fs.map Prod.snd).flatten) =
          some (acc, fs.map fun p => some p.1) := by
  refine ⟨pump_referenceParse hcap, ?_⟩
  intro g fs hg hfs
  have hwire : fs.map Prod.snd = (fs.map Prod.fst).map encode := by
    rw [List.map_map]
    exact List.map_congr_left fun p hp => (canonEncoded_cases (hfs p hp)).2
  have henc : ∀ f ∈ fs.map Prod.fst, Encodable f := by
    intro f hf
    obtain ⟨p, hp, rfl⟩ := List.mem_map.mp hf
    exact (canonEncoded_cases (hfs p hp)).1
  obtain ⟨acc, hacc, -⟩ := pump_referenceParse hcap (g ++ (fs.map Prod.snd).flatten)
  refine ⟨acc, ?_⟩
  rw [hacc, hwire, referenceParse_garbage hg (head_encodes _), referenceParse_encodes henc,
    List.map_map]
  rfl

/-- An empty echo request behind three stray bytes, the last a first magic byte. -/
theorem echo_behind_garbage :
    MagicFree [0x59, 0x00, 0x58] ∧ ∃ acc : FrameAccum INFER_ACCUM_CAP,
      FrameAccum.new.pump ([0x59, 0x00, 0x58] ++
          (canon emptyEchoReq (List.replicate 66 0)).2.take 66) =
        some (acc, [some emptyEchoReq]) := by
  have hg : MagicFree [0x59, 0x00, 0x58] := by decide
  refine ⟨hg, ?_⟩
  have h := (pump_resynchronises (Nat.le_refl INFER_ACCUM_CAP)).2 [0x59, 0x00, 0x58]
    [(emptyEchoReq, (canon emptyEchoReq (List.replicate 66 0)).2.take 66)] hg fun p hp => by
      rw [List.mem_singleton.mp hp]
      exact ⟨List.replicate 66 0, by decide, rfl⟩
  rwa [List.map_cons, List.map_nil, List.flatten_cons, List.flatten_nil, List.append_nil] at h

end Yuva.Wire
