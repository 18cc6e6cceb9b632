/-
# `Yuva.Attest.Pae` — the bytes that are signed

`put_decimal`, `decimal_len` and `pae` of `tb-encode/src/attest.rs`, store by store:

    "DSSEv1" SP LEN(type) SP type SP LEN(body) SP body

The digits of a length are stored from the last to the first, behind a count that was taken
beforehand.  `paeBytes` is the layout; `pae_eq` says that the stores write it, or nothing when
the buffer is too short or a length has more than ten digits.

**Proved here.**  No two pairs of a type and a body have the same bytes, whatever digits and
spaces they hold (`paeBytes_inj`).  Together with the codec of `Yuva.Attest.Statement` this is
`attest_exact`.
-/
import Yuva.Attest.Statement
import Yuva.Lib.Decimal

namespace Yuva.Attest

open Yuva.Bytes Yuva.Checked Yuva.Stores Yuva.Decimal

def MAX_DECIMAL : Nat := 10

/-- `while tmp > 0 { n += 1; tmp /= 10 }`. -/
def countDigits (tmp n : Nat) : Nat :=
  if 0 < tmp then countDigits (tmp / 10) (n + 1) else n
termination_by tmp
decreasing_by exact Nat.div_lt_self ‹_› (by decide)

/-- `while k > 0 { out[pos + k - 1] = b'0' + (v % 10) as u8; v /= 10; k -= 1 }`. -/
def emitDigits (pos : Nat) : Nat → Nat → List UInt8 → Option (List UInt8)
  | 0, _, out => some out
  | k + 1, v, out => do
      let out ← setAt out (pos + k) (digitByte (v % 10))
      emitDigits pos k (v / 10) out

/-- The digit count, and the buffer. -/
def putDecimal (out : List UInt8) (pos x : Nat) : Option (Nat × List UInt8) :=
  if x = 0 then do
    let out ← setAt out pos 0x30
    return (1, out)
  else do
    let ndig := countDigits x 0
    let out ← emitDigits pos ndig x out
    return (ndig, out)

def decimalLen (x : Nat) : Nat := if x = 0 then 1 else countDigits x 0

def paeLen (typeBytes body : List UInt8) : Nat :=
  6 + 1 + decimalLen typeBytes.length + 1 + typeBytes.length + 1 + decimalLen body.length + 1 + body.length

/-- `b"DSSEv1"`. -/
def PAE_HEADER : List UInt8 := [0x44, 0x53, 0x53, 0x45, 0x76, 0x31]

def pae (typeBytes body out : List UInt8) : Option (Nat × List UInt8) :=
  if out.length < paeLen typeBytes body ∨ decimalLen typeBytes.length > MAX_DECIMAL ∨
      decimalLen body.length > MAX_DECIMAL then some (0, out)
  else do
    let out ← copyLoop PAE_HEADER 6 out 0
    let off := 6
    let out ← setAt out off 0x20
    let off := off + 1
    let (n, out) ← putDecimal out off typeBytes.length
    let off := off + n
    let out ← setAt out off 0x20
    let off := off + 1
    let out ← copyLoop typeBytes typeBytes.length out off
    let off := off + typeBytes.length
    let out ← setAt out off 0x20
    let off := off + 1
    let (n, out) ← putDecimal out off body.length
    let off := off + n
    let out ← setAt out off 0x20
    let off := off + 1
    let out ← copyLoop body body.length out off
    return (off + body.length, out)

def paeBytes (typeBytes body : List UInt8) : List UInt8 :=
  PAE_HEADER ++ [0x20] ++ decimal typeBytes.length ++ [0x20] ++ typeBytes ++ [0x20] ++ decimal body.length ++
    [0x20] ++ body

/-! ## Digits -/

theorem countDigits_eq (tmp n : Nat) : countDigits tmp n = n + (Nat.digits 10 tmp).length := by
  fun_induction countDigits tmp n with
  | case1 tmp n h ih =>
      rw [ih, Nat.digits_of_two_le_of_pos (by decide) h, List.length_cons]
      omega
  | case2 tmp n h =>
      obtain rfl : tmp = 0 := by omega
      simp

/-- The last `k` digits of a number. -/
def lowDigits : Nat → Nat → List UInt8
  | 0, _ => []
  | k + 1, v => lowDigits k (v / 10) ++ [digitByte (v % 10)]

@[simp] theorem length_lowDigits (k v : Nat) : (lowDigits k v).length = k := by
  induction k generalizing v with
  | zero => rfl
  | succ k ih => rw [lowDigits, List.length_append, ih, List.length_singleton]

theorem lowDigits_eq (v : Nat) :
    lowDigits (Nat.digits 10 v).length v = ((Nat.digits 10 v).map digitByte).reverse := by
  induction v using Nat.strong_induction_on with
  | h v ih =>
      by_cases hv : 0 < v
      · rw [Nat.digits_of_two_le_of_pos (by decide) hv, List.length_cons, lowDigits,
          ih _ (Nat.div_lt_self hv (by decide)), List.map_cons, List.reverse_cons]
      · obtain rfl : v = 0 := by omega
        rfl

theorem emitDigits_eq {out : List UInt8} {pos k v : Nat} (h : pos + k ≤ out.length) :
    emitDigits pos k v out = some (splice out pos (lowDigits k v)) := by
  induction k generalizing v out with
  | zero => simp [emitDigits, lowDigits]
  | succ k ih =>
      have hone : (splice out (pos + k) [digitByte (v % 10)]).length = out.length :=
        length_splice (by rw [List.length_singleton]; omega)
      have hbefore : splice (splice out (pos + (lowDigits k (v / 10)).length) [digitByte (v % 10)]) pos
          (lowDigits k (v / 10)) = splice out pos (lowDigits k (v / 10) ++ [digitByte (v % 10)]) :=
        splice_before (by rw [List.length_append, length_lowDigits, List.length_singleton]; omega)
      rw [length_lowDigits] at hbefore
      rw [emitDigits, setAt_eq (by omega), some_bind, ih (by rw [hone]; omega), hbefore, lowDigits]

theorem decimalLen_eq (x : Nat) : decimalLen x = (decimal x).length := by
  rw [decimalLen, decimal]
  split
  · rfl
  · rw [countDigits_eq, Nat.zero_add, List.length_reverse, List.length_map]

theorem putDecimal_eq {out : List UInt8} {pos x : Nat} (h : pos + (decimal x).length ≤ out.length) :
    putDecimal out pos x = some ((decimal x).length, splice out pos (decimal x)) := by
  rw [putDecimal]
  rw [decimal] at h ⊢
  split at h
  case isTrue hx =>
    rw [List.length_singleton] at h
    rw [if_pos hx, if_pos hx, setAt_eq (by omega), some_bind]
    rfl
  case isFalse hx =>
    rw [List.length_reverse, List.length_map] at h
    rw [if_neg hx, if_neg hx, countDigits_eq, Nat.zero_add]
    dsimp only
    rw [emitDigits_eq h, some_bind, lowDigits_eq, List.length_reverse, List.length_map]
    rfl

theorem putDecimal_front {out a : List UInt8} {off x : Nat} (hoff : a.length = off)
    (h : off + (decimal x).length ≤ out.length) :
    putDecimal (splice out 0 a) off x = some ((decimal x).length, splice out 0 (a ++ decimal x)) := by
  rw [putDecimal_eq (by rw [length_splice (by omega)]; exact h), ← hoff, splice_front (by omega)]

/-! ## The encoding -/

theorem length_paeBytes (t b : List UInt8) : (paeBytes t b).length = paeLen t b := by
  simp only [paeBytes, paeLen, decimalLen_eq, List.length_append, List.length_singleton]
  rfl

theorem pae_eq (t b out : List UInt8) :
    pae t b out =
      some (if out.length < paeLen t b ∨ decimalLen t.length > MAX_DECIMAL ∨ decimalLen b.length > MAX_DECIMAL
        then (0, out) else (paeLen t b, splice out 0 (paeBytes t b))) := by
  rw [pae]
  split
  · rfl
  case isFalse hroom =>
    rw [not_or, Nat.not_lt] at hroom
    have hlen := hroom.1
    have htotal : paeLen t b = 10 + (decimal t.length).length + t.length + (decimal b.length).length + b.length := by
      rw [paeLen, decimalLen_eq, decimalLen_eq]
      omega
    have hheader : PAE_HEADER.length = 6 := rfl
    rw [copyLoop_eq hheader (by omega), some_bind]
    dsimp only
    rw [setAt_front _ hheader (by omega), some_bind, putDecimal_front (by simp [hheader]) (by omega), some_bind]
    dsimp only
    rw [setAt_front _ (by simp [hheader]; omega) (by omega), some_bind,
      copyLoop_front _ (by simp [hheader]; omega) rfl (by omega), some_bind,
      setAt_front _ (by simp [hheader]; omega) (by omega), some_bind,
      putDecimal_front (by simp [hheader]; omega) (by omega), some_bind]
    dsimp only
    rw [setAt_front _ (by simp [hheader]; omega) (by omega), some_bind,
      copyLoop_front _ (by simp [hheader]; omega) rfl (by omega), some_bind]
    exact congrArg (fun n => some (n, _)) (by omega)

/-- The text of a length ends at the first space, and says where the field behind it ends. -/
theorem paeBytes_inj {t b t' b' : List UInt8} (h : paeBytes t b = paeBytes t' b') : t = t' ∧ b = b' := by
  have hspace : ∀ n, (0x20 : UInt8) ∉ decimal n := fun n => not_mem_decimal (by decide)
  simp only [paeBytes, List.append_assoc, List.singleton_append] at h
  have hbehind := (List.cons.inj (List.append_cancel_left h)).2
  obtain ⟨htlen, htype⟩ := append_sep_inj (hspace _) (hspace _) hbehind
  obtain ⟨rfl, hrest⟩ := List.append_inj htype (decimal_inj htlen)
  obtain ⟨-, hbody⟩ := append_sep_inj (hspace _) (hspace _) (List.cons.inj hrest).2
  exact ⟨rfl, hbody⟩

/-- A length is encodable when it has at most ten digits. -/
theorem decimalLen_le_iff (x : Nat) : decimalLen x ≤ MAX_DECIMAL ↔ x < 10 ^ 10 := by
  rw [decimalLen, MAX_DECIMAL]
  split
  case isTrue hx =>
    rw [hx]
    decide
  case isFalse => rw [countDigits_eq, Nat.zero_add, Nat.digits_length_le_iff (by decide)]

/-- A buffer of `room` bytes takes the encoding of a type and a body. -/
def PaeFits (t b : List UInt8) (room : Nat) : Prop :=
  paeLen t b ≤ room ∧ t.length < 10 ^ 10 ∧ b.length < 10 ^ 10

theorem pae_of_fits {t b out : List UInt8} (h : PaeFits t b out.length) :
    pae t b out = some (paeLen t b, splice out 0 (paeBytes t b)) := by
  have ht := (decimalLen_le_iff t.length).mpr h.2.1
  have hb := (decimalLen_le_iff b.length).mpr h.2.2
  have hroom := h.1
  rw [pae_eq, if_neg (by omega)]

theorem pae_of_not_fits {t b out : List UInt8} (h : ¬PaeFits t b out.length) : pae t b out = some (0, out) := by
  rw [PaeFits, ← decimalLen_le_iff, ← decimalLen_le_iff] at h
  rw [pae_eq, if_pos (by omega)]

/-- The bytes that a call wrote are the encoding, or none. -/
theorem written_pae {t b out w : List UInt8} {n : Nat} (h : pae t b out = some (n, w)) :
    n = paeLen t b ∧ w.take n = paeBytes t b ∨ n = 0 ∧ w.take n = [] := by
  by_cases hfits : PaeFits t b out.length
  · rw [pae_of_fits hfits] at h
    obtain ⟨rfl, rfl⟩ : _ ∧ _ := by simpa only [Option.some.injEq, Prod.mk.injEq] using h
    refine .inl ⟨rfl, ?_⟩
    rw [splice, List.take_zero, List.nil_append, List.take_left' (length_paeBytes t b)]
  · rw [pae_of_not_fits hfits] at h
    obtain ⟨rfl, rfl⟩ : _ ∧ _ := by simpa only [Option.some.injEq, Prod.mk.injEq] using h
    exact .inr ⟨rfl, List.take_zero⟩

theorem pae_injective {t b out t' b' out' w w' : List UInt8} {n n' : Nat} (h : pae t b out = some (n, w))
    (h' : pae t' b' out' = some (n', w')) (hn : n ≠ 0) (heq : w.take n = w'.take n') : t = t' ∧ b = b' := by
  rcases written_pae h with ⟨-, hw⟩ | ⟨hzero, -⟩
  · rcases written_pae h' with ⟨-, hw'⟩ | ⟨-, hw'⟩
    · rw [hw, hw'] at heq
      exact paeBytes_inj heq
    · rw [hw, hw'] at heq
      have hlen := congrArg List.length heq
      rw [length_paeBytes, List.length_nil, paeLen] at hlen
      omega
  · exact absurd hzero hn

/-- What `pae` wrote, it wrote for one type and one body only, of any lengths that it encodes;
it encodes the lengths of at most ten digits, and leaves the buffer alone at any other.
`canon` and `decode` are inverse to each other on the statements within the limits and the
buffers that decode. -/
theorem attest_exact :
    (∀ t b out t' b' out' n w n' w', pae t b out = some (n, w) → pae t' b' out' = some (n', w') → n ≠ 0 →
      w.take n = w'.take n' → t = t' ∧ b = b') ∧
    (∀ t b out, PaeFits t b out.length → pae t b out = some (paeLen t b, splice out 0 (paeBytes t b))) ∧
    (∀ t b out, ¬PaeFits t b out.length → pae t b out = some (0, out)) ∧
    (∀ st out, Fits st → canonLen st ≤ out.length →
      ∃ w, canon st out = some (canonLen st, w) ∧
        ∃ d, decode (w.take (canonLen st)) = some (some d) ∧ d.statement = st) ∧
    ∀ buf d, decode buf = some (some d) → Fits d.statement ∧ ∀ out, buf.length ≤ out.length →
      canon d.statement out = some (buf.length, buf ++ out.drop buf.length) := by
  refine ⟨fun t b out t' b' out' n w n' w' => pae_injective, fun t b out => pae_of_fits,
    fun t b out => pae_of_not_fits, fun st out hfits hroom => ?_, fun buf d hd => ?_⟩
  · refine ⟨splice out 0 (encode st), by rw [canon_eq, if_pos ⟨hfits, hroom⟩], owned st, ?_, statement_owned hfits⟩
    rw [splice, List.take_zero, List.nil_append, List.take_left' (length_encode st), decode_encode hfits]
  · obtain ⟨hfits, henc⟩ := encode_of_decode hd
    have hlen : canonLen d.statement = buf.length := by rw [← length_encode, henc]
    refine ⟨hfits, fun out hout => ?_⟩
    rw [canon_eq, if_pos ⟨hfits, by omega⟩, henc, hlen, splice, List.take_zero, List.nil_append, Nat.zero_add]

/-- A statement of one material and one debt. -/
def smallStatement : AttestStatement :=
  { subjectDigest := zeros ATTEST_DIGEST_LEN, builderId := zeros BUILDER_ID_LEN, buildType := 1,
    toolchainHash := zeros ATTEST_DIGEST_LEN, materials := [zeros ATTEST_DIGEST_LEN],
    ledger := [{ depTok := 0x594d3333, status := 2 }] }

theorem attest_exact_small :
    (∃ w, canon smallStatement (List.replicate 130 0) = some (127, w) ∧
      ∃ d, decode (w.take 127) = some (some d) ∧ d.statement = smallStatement) ∧
    pae [0x61] [0x20, 0x31] (List.replicate 15 0) =
      some (15, splice (List.replicate 15 0) 0 (paeBytes [0x61] [0x20, 0x31])) := by
  have hlen : paeLen [0x61] [0x20, 0x31] = 15 := by simp [paeLen, decimalLen, countDigits]
  have hfits : PaeFits [0x61] [0x20, 0x31] (List.replicate 15 (0 : UInt8)).length := by
    rw [List.length_replicate, PaeFits, hlen]
    decide
  have hpae := attest_exact.2.1 [0x61] [0x20, 0x31] (List.replicate 15 0) hfits
  rw [hlen] at hpae
  refine ⟨attest_exact.2.2.2.1 smallStatement (List.replicate 130 0) (by decide) ?_, hpae⟩
  rw [List.length_replicate]
  decide

end Yuva.Attest
