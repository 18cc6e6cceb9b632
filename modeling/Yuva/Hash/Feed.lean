/-
# `Yuva.Hash.Feed` — what BLAKE2s is fed

The driver of `Yuva.Hash.Khash` as the list of calls it makes to the compression function, each
a block, a byte counter and the flag of the last one (`calls`).

**Proved here.**  `khash` and `uhash` return the digest of RFC 7693 (`Yuva.Lib.Blake2s`) for
every key and every message.  The calls of one mode determine the message, and with a key the
key; the calls alone do not tell the modes apart, for a keyed message is fed like the unkeyed
message that starts with the padded key.  What tells them apart is the first word of the initial
state (`hash_exact`).

`rfcDigest` is the RFC's digest as the entry points return it; other modules work out the digests
of given bytes with it.
-/
import Yuva.Hash.Khash
import Yuva.Lib.Blake2s

namespace Yuva.Hash

open Yuva.Bytes Yuva.Chunks

/-! ## The compression function is the RFC's -/

/-- A vector of words as a function of the index. -/
def lanes {n : Nat} (v : Vector Word n) : Fin n → Word := fun i => v[i]

theorem lanes_set {n : Nat} (v : Vector Word n) (a : Fin n) (x : Word) :
    lanes (v.set a x) = Function.update (lanes v) a x := by
  funext i
  rw [Function.update_apply]
  split
  case isTrue h =>
    subst h
    exact Vector.getElem_set_self ..
  case isFalse h => exact Vector.getElem_set_ne _ _ fun heq => h (Fin.ext heq.symm)

theorem lanes_g (v : Vector Word 16) (a b c d : Fin 16) (x y : Word) :
    lanes (g v a b c d x y) = Blake2s.mix (lanes v) a b c d x y := by
  have hget : ∀ (w : Vector Word 16) (i : Fin 16), w[i] = lanes w i := fun _ _ => rfl
  simp only [g, Blake2s.mix, hget, lanes_set]

/-- The rows of the two tables. -/
theorem SIGMA_eq : SIGMA.map (fun s => s.toList) = Blake2s.sigma := by decide

theorem lanes_round (block : List UInt8) (v : Vector Word 16) (s : Vector (Fin 16) 16) :
    lanes (round (blockWords block) v s) = Blake2s.round (Blake2s.messageWord block) (lanes v) s.toList := by
  have hword : ∀ (k : Nat) (hk : k < 16),
      (blockWords block)[s[k]] = Blake2s.messageWord block (s.toList.getD k 0).val := by
    intro k hk
    have hget : s.toList.getD k 0 = s[k] := by
      rw [List.getD_eq_getElem _ _ (by rwa [Vector.length_toList]), Vector.getElem_toList]
    rw [hget, Fin.getElem_fin, blockWords, Vector.getElem_ofFn, Blake2s.messageWord]
  simp only [round, Blake2s.round, lanes_g, hword]

theorem lanes_rounds (block : List UInt8) (v : Vector Word 16) (rows : List (Vector (Fin 16) 16)) :
    lanes (rows.foldl (round (blockWords block)) v) =
      (rows.map fun s => s.toList).foldl (Blake2s.round (Blake2s.messageWord block)) (lanes v) := by
  induction rows generalizing v with
  | nil => rfl
  | cons s rows ih => rw [List.foldl_cons, ih, lanes_round, List.map_cons, List.foldl_cons]

theorem IV_eq (i : Fin 8) : lanes IV i = Blake2s.IV i.val := by
  revert i
  decide

/-- The two halves of the counter. -/
theorem counter_halves (t : Nat) : (BitVec.ofNat 64 t).setWidth 32 = BitVec.ofNat 32 t ∧
    ((BitVec.ofNat 64 t) >>> 32).setWidth 32 = BitVec.ofNat 32 (t >>> 32) := by
  constructor
  · apply BitVec.eq_of_toNat_eq
    simp only [BitVec.toNat_setWidth, BitVec.toNat_ofNat]
    omega
  · apply BitVec.eq_of_toNat_eq
    simp only [BitVec.toNat_setWidth, BitVec.toNat_ofNat, BitVec.toNat_ushiftRight, Nat.shiftRight_eq_div_pow]
    omega

theorem compress_eq_startVector (h : Vector Word 8) (block : List UInt8) (t : BitVec 64) (last : Bool) (j : Fin 8) :
    lanes (compress h block t last) j = lanes h j ^^^
      (lanes (SIGMA.foldl (round (blockWords block)) (startVector h t last)) ⟨j.val, Blake2s.lane_low j⟩ ^^^
        lanes (SIGMA.foldl (round (blockWords block)) (startVector h t last)) ⟨j.val + 8, Blake2s.lane_high j⟩) := by
  rw [lanes, Fin.getElem_fin, compress, Vector.getElem_ofFn]
  rfl

theorem lanes_append_IV (h : Vector Word 8) :
    lanes (h ++ IV) =
      fun i : Fin 16 => if hi : i.val < 8 then lanes h ⟨i.val, hi⟩ else Blake2s.IV (i.val - 8) := by
  funext i
  split
  case isTrue hi => exact Vector.getElem_append_left hi
  case isFalse hi =>
    have hright : lanes (h ++ IV) i = IV[i.val - 8] := Vector.getElem_append_right (by omega) (by omega)
    exact hright.trans (IV_eq ⟨i.val - 8, by omega⟩)

theorem lanes_startVector (h : Vector Word 8) (t : Nat) (last : Bool) :
    lanes (startVector h (.ofNat 64 t) last) = Blake2s.start (lanes h) t last := by
  obtain ⟨hlow, hhigh⟩ := counter_halves t
  have h12 : ∀ (v : Vector Word 16) x, lanes (v.set 12 x) = Function.update (lanes v) 12 x := fun v => lanes_set v 12
  have h13 : ∀ (v : Vector Word 16) x, lanes (v.set 13 x) = Function.update (lanes v) 13 x := fun v => lanes_set v 13
  have h14 : ∀ (v : Vector Word 16) x, lanes (v.set 14 x) = Function.update (lanes v) 14 x := fun v => lanes_set v 14
  have hget : ∀ (w : Vector Word 16) (i : Nat) (hi : i < 16), w[i] = lanes w ⟨i, hi⟩ := fun _ _ _ => rfl
  have hnot : ∀ x : Word, ~~~x = x ^^^ 0xffffffff := fun x => BitVec.xor_allOnes.symm
  cases last with
  | false =>
      simp only [startVector, Blake2s.start, Bool.false_eq_true, if_false, h13, h12, hget, lanes_append_IV, hlow, hhigh]
      rfl
  | true =>
      simp only [startVector, Blake2s.start, if_true, h14, h13, h12, hget, lanes_append_IV, hlow, hhigh, hnot]
      rfl

theorem lanes_compress (h : Vector Word 8) (block : List UInt8) (t : Nat) (last : Bool) :
    lanes (compress h block (.ofNat 64 t) last) = Blake2s.compress (lanes h) block t last := by
  funext j
  have hlane := compress_eq_startVector h block (.ofNat 64 t) last j
  rw [lanes_rounds, SIGMA_eq, lanes_startVector, ← BitVec.xor_assoc] at hlane
  exact hlane

/-! ## The calls -/

/-- The arguments of one call: the block, the counter, and the flag of the last block. -/
abbrev Call := List UInt8 × BitVec 64 × Bool

/-- The calls of `absorb`, and what it leaves. -/
def absorbCalls : Nat → BitVec 64 → List UInt8 → List Call × BitVec 64 × List UInt8
  | 0, t, msg => ([], t, msg)
  | fuel + 1, t, msg =>
      if BLOCK_LEN < msg.length then
        let t := t + BitVec.ofNat 64 BLOCK_LEN
        let (cs, t', rest) := absorbCalls fuel t (msg.drop BLOCK_LEN)
        ((msg.take BLOCK_LEN, t, false) :: cs, t', rest)
      else ([], t, msg)

def finishCalls (t : BitVec 64) (msg : List UInt8) : List Call :=
  let (cs, t, rest) := absorbCalls msg.length t msg
  cs ++ [(padBlock rest, t + BitVec.ofNat 64 rest.length, true)]

/-- Every call that `blake2s` makes to the compression function, in order. -/
def calls (key : Option Bytes32) (msg : List UInt8) : List Call :=
  match key with
  | some k =>
      let t := BitVec.ofNat 64 BLOCK_LEN
      (padBlock k.val, t, msg.isEmpty) :: if msg.isEmpty then [] else finishCalls t msg
  | none => if msg.isEmpty then [(padBlock [], 0, true)] else finishCalls 0 msg

/-- The state behind a list of calls. -/
def feed (h : Vector Word 8) (cs : List Call) : Vector Word 8 := cs.foldl (fun h c => compress h c.1 c.2.1 c.2.2) h

theorem absorb_eq_feed (fuel : Nat) (h : Vector Word 8) (t : BitVec 64) (msg : List UInt8) :
    absorb fuel h t msg =
      (feed h (absorbCalls fuel t msg).1, (absorbCalls fuel t msg).2.1, (absorbCalls fuel t msg).2.2) := by
  induction fuel generalizing h t msg with
  | zero => rfl
  | succ fuel ih =>
      rw [absorb, absorbCalls]
      split
      · rw [ih]
        rfl
      · rfl

theorem finish_eq_feed (h : Vector Word 8) (t : BitVec 64) (msg : List UInt8) :
    finish h t msg = digestBytes (feed h (finishCalls t msg)) := by
  rw [finish, absorb_eq_feed, finishCalls]
  rcases absorbCalls msg.length t msg with ⟨cs, t', r⟩
  rw [feed, feed, List.foldl_append]
  rfl

/-- The driver folds its calls. -/
theorem blake2s_eq_feed (key : Option Bytes32) (msg : List UInt8) :
    blake2s key msg = digestBytes (feed (initialState key) (calls key msg)) := by
  cases key with
  | none =>
      rw [blake2s, calls]
      split
      · rfl
      · rw [finish_eq_feed]
        rfl
  | some k =>
      rw [blake2s, calls]
      split
      case isTrue hempty =>
        rw [hempty]
        rfl
      case isFalse hfull =>
        rw [finish_eq_feed, feed, feed, List.foldl_cons]
        rfl

/-! ## The calls are the RFC's -/

/-- Blocks with their counters, the last with one of its own. -/
def numbered (t total : BitVec 64) : List (List UInt8) → List Call
  | [] => []
  | [b] => [(b, total, true)]
  | b :: b' :: bs =>
      (b, t + BitVec.ofNat 64 BLOCK_LEN, false) :: numbered (t + BitVec.ofNat 64 BLOCK_LEN) total (b' :: bs)

/-- A message that is not empty has a last block. -/
theorem chunks_zeroPad_last {msg : List UInt8} (hmsg : msg ≠ []) (h : msg.length ≤ 64) :
    chunks 64 (Blake2s.zeroPad msg) = [padBlock msg] := by
  have hlen : (padBlock msg).length = 64 := by
    rw [padBlock, BLOCK_LEN, List.length_append, List.length_replicate]
    omega
  have hone := chunks_piece (by decide) [] hlen
  have hnil : ([] : List UInt8).length < 64 := by decide
  rw [List.append_nil, chunks_short hnil] at hone
  rw [Blake2s.zeroPad_last hmsg h]
  exact hone

theorem chunks_zeroPad_ne_nil {msg : List UInt8} (hmsg : msg ≠ []) : chunks 64 (Blake2s.zeroPad msg) ≠ [] := by
  intro hnone
  have hpos := List.length_pos_iff.mpr hmsg
  have hflat := flatten_chunks (by decide) (n := 64) (Blake2s.zeroPad msg)
  have hlen := congrArg List.length hflat
  rw [hnone, List.flatten_nil, List.nil_append, length_rest] at hlen
  have hpad : (Blake2s.zeroPad msg).length % 64 = 0 := by
    rw [Blake2s.zeroPad, List.length_append, List.length_replicate]
    omega
  have hge := (Blake2s.length_zeroPad msg).1
  omega

theorem absorbCalls_numbered {fuel : Nat} {msg : List UInt8} (hmsg : msg ≠ []) (hfuel : msg.length ≤ 64 + fuel)
    (t : BitVec 64) :
    (absorbCalls fuel t msg).1 ++ [(padBlock (absorbCalls fuel t msg).2.2,
        (absorbCalls fuel t msg).2.1 + BitVec.ofNat 64 (absorbCalls fuel t msg).2.2.length, true)] =
      numbered t (t + BitVec.ofNat 64 msg.length) (chunks 64 (Blake2s.zeroPad msg)) := by
  induction fuel generalizing msg t with
  | zero =>
      rw [chunks_zeroPad_last hmsg hfuel]
      rfl
  | succ fuel ih =>
      rw [absorbCalls]
      split
      case isTrue hlong =>
        rw [BLOCK_LEN] at hlong ⊢
        have hdrop : msg.drop 64 ≠ [] := by
          rw [← List.length_pos_iff, List.length_drop]
          omega
        have htake : (msg.take 64).length = 64 := by
          rw [List.length_take]
          omega
        have htotal : t + BitVec.ofNat 64 64 + BitVec.ofNat 64 (msg.drop 64).length =
          t + BitVec.ofNat 64 msg.length := by
          rw [List.length_drop, BitVec.add_assoc, ← BitVec.ofNat_add]
          congr 2
          omega
        have hpad : Blake2s.zeroPad msg = msg.take 64 ++ Blake2s.zeroPad (msg.drop 64) := by
          rw [← Blake2s.zeroPad_piece _ htake, List.take_append_drop]
        have hrest := ih hdrop (by rw [List.length_drop]; omega) (t + BitVec.ofNat 64 64)
        obtain ⟨b, bs, hbs⟩ := List.exists_cons_of_ne_nil (chunks_zeroPad_ne_nil hdrop)
        rw [hpad, chunks_piece (by decide) _ htake, hbs, numbered, BLOCK_LEN, ← htotal, ← hbs, ← hrest]
        rfl
      case isFalse hshort =>
        rw [chunks_zeroPad_last hmsg (Nat.not_lt.mp hshort)]
        rfl

theorem finishCalls_eq {msg : List UInt8} (hmsg : msg ≠ []) (t : BitVec 64) :
    finishCalls t msg = numbered t (t + BitVec.ofNat 64 msg.length) (chunks 64 (Blake2s.zeroPad msg)) :=
  absorbCalls_numbered hmsg (Nat.le_add_left _ _) t

theorem lanes_feed_numbered (h : Vector Word 8) (i total : Nat) (bs : List (List UInt8)) :
    lanes (feed h (numbered (.ofNat 64 (i * 64)) (.ofNat 64 total) bs)) = Blake2s.absorb (lanes h) i total bs := by
  induction bs generalizing h i with
  | nil => rfl
  | cons b bs ih =>
      cases bs with
      | nil => exact lanes_compress h b total true
      | cons b' bs =>
          have hnext : BitVec.ofNat 64 (i * 64) + BitVec.ofNat 64 BLOCK_LEN = BitVec.ofNat 64 ((i + 1) * 64) := by
            rw [← BitVec.ofNat_add, BLOCK_LEN, Nat.succ_mul]
          rw [numbered, hnext, Blake2s.absorb, feed, List.foldl_cons, ← lanes_compress]
          exact ih _ _

/-- The key as the RFC has it: no bytes for the unkeyed hash. -/
def keyBytes : Option Bytes32 → List UInt8
  | some k => k.val
  | none => []

/-- The byte count of the last block. -/
def totalBytes (key : Option Bytes32) (msg : List UInt8) : Nat :=
  if keyBytes key = [] then msg.length else msg.length + 64

theorem keyBytes_some_ne_nil (k : Bytes32) : keyBytes (some k) ≠ [] := by
  intro hnil
  have hlen := congrArg List.length hnil
  rw [keyBytes, k.property] at hlen
  cases hlen

theorem calls_eq_numbered (key : Option Bytes32) (msg : List UInt8) :
    calls key msg =
      numbered (.ofNat 64 (0 * 64)) (.ofNat 64 (totalBytes key msg)) (Blake2s.dataBlocks (keyBytes key) msg) := by
  have hnone : chunks 64 (Blake2s.zeroPad []) = [] := chunks_short (by decide)
  cases key with
  | none =>
      have hkey : keyBytes none = [] := rfl
      have htotal : totalBytes none msg = msg.length := if_pos rfl
      rw [Blake2s.dataBlocks, hkey, htotal]
      by_cases hmsg : msg = []
      · rw [hmsg, if_pos ⟨rfl, rfl⟩]
        rfl
      · have hempty : ¬msg.isEmpty = true := fun h => hmsg (List.isEmpty_iff.mp h)
        rw [if_neg fun h => hmsg h.2, hnone, List.nil_append, calls, if_neg hempty, finishCalls_eq hmsg]
        exact congrArg (fun total => numbered 0 total _) (BitVec.zero_add _)
  | some k =>
      have hsome := keyBytes_some_ne_nil k
      have hkey : chunks 64 (Blake2s.zeroPad (keyBytes (some k))) = [padBlock k.val] :=
        chunks_zeroPad_last hsome (by rw [keyBytes, k.property]; decide)
      have htotal : totalBytes (some k) msg = msg.length + 64 := if_neg hsome
      rw [Blake2s.dataBlocks, if_neg fun h => hsome h.1, hkey, htotal, calls]
      by_cases hmsg : msg = []
      · rw [hmsg, hnone]
        rfl
      · have hempty : msg.isEmpty = false := List.isEmpty_eq_false_iff.mpr hmsg
        obtain ⟨b, bs, hbs⟩ := List.exists_cons_of_ne_nil (chunks_zeroPad_ne_nil hmsg)
        have hsum : BitVec.ofNat 64 BLOCK_LEN + BitVec.ofNat 64 msg.length = BitVec.ofNat 64 (msg.length + 64) := by
          rw [← BitVec.ofNat_add, BLOCK_LEN, Nat.add_comm]
        rw [hempty, if_neg Bool.false_ne_true, finishCalls_eq hmsg, hsum, hbs]
        rfl

theorem lanes_initialState (key : Option Bytes32) :
    lanes (initialState key) =
      Function.update (fun i : Fin 8 => Blake2s.IV i.val) 0
        (Blake2s.IV 0 ^^^ (0x01010000 : Word) ^^^ (BitVec.ofNat 32 (keyBytes key).length <<< 8) ^^^ .ofNat 32 32) := by
  have hIV : lanes IV = fun i : Fin 8 => Blake2s.IV i.val := funext IV_eq
  have hset : ∀ x, lanes (IV.set 0 x) = Function.update (lanes IV) 0 x := fun x => lanes_set IV 0 x
  have hzero : IV[0] = Blake2s.IV 0 := IV_eq 0
  cases key with
  | none =>
      rw [initialState, hset, hIV, hzero, KHASH_TAG_LEN, keyBytes, List.length_nil, BitVec.zero_shiftLeft,
        BitVec.xor_zero, BitVec.xor_assoc]
  | some k =>
      rw [initialState, hset, hIV, hzero, KHASH_KEY_LEN, KHASH_TAG_LEN, keyBytes, k.property]
      simp only [BitVec.xor_assoc]
      rfl

theorem digestBytes_val (h : Vector Word 8) :
    (digestBytes h).val = (((List.finRange 8).map fun i => le 4 (lanes h i).toNat).flatten).take 32 := by
  have hlist : h.toList = (List.finRange 8).map (lanes h) := by
    refine List.ext_getElem (by simp) fun i hi _ => ?_
    rw [Vector.getElem_toList, List.getElem_map, List.getElem_finRange]
    rfl
  have hval : (digestBytes h).val = ((List.finRange 8).map fun i => le 4 (lanes h i).toNat).flatten := by
    have hwords := congrArg (fun ws => (ws.map fun w : Word => le 4 w.toNat).flatten) hlist
    simp only [List.map_map] at hwords
    exact hwords
  rw [← hval, List.take_of_length_le (Nat.le_of_eq (digestBytes h).property)]

theorem blake2s_eq (key : Option Bytes32) (msg : List UInt8) :
    (blake2s key msg).val = Blake2s.blake2s (keyBytes key) 32 msg := by
  rw [blake2s_eq_feed, digestBytes_val, calls_eq_numbered, lanes_feed_numbered, lanes_initialState]
  rfl

/-- The digest of the RFC.  Its lanes are read by their index, where those of the code are one array
after another, so it is the one to work out. -/
def rfcDigest (key : Option Bytes32) (msg : List UInt8) : Bytes32 :=
  ⟨Blake2s.blake2s (keyBytes key) 32 msg, by rw [← blake2s_eq]; exact (blake2s key msg).property⟩

theorem khash_eq_rfc (key : Bytes32) : khash key = rfcDigest (some key) :=
  funext fun msg => Subtype.ext (blake2s_eq (some key) msg)

theorem uhash_eq_rfc : uhash = rfcDigest none := funext fun msg => Subtype.ext (blake2s_eq none msg)

-- `KAT_ABC_UNKEYED` of the source.
example : (uhash [0x61, 0x62, 0x63]).val =
    [0x50, 0x8C, 0x5E, 0x8C, 0x32, 0x7C, 0x14, 0xE2, 0xE1, 0xA7, 0x2B, 0xA3, 0x4E, 0xEB, 0x45, 0x2F,
     0x37, 0x45, 0x8B, 0x20, 0x9E, 0xD6, 0x3A, 0x29, 0x4D, 0x99, 0x9B, 0x4C, 0x86, 0x67, 0x59, 0x82] := by
  rw [uhash_eq_rfc]
  decide +kernel

/-! ## What the calls determine -/

theorem numbered_inj {t a b : BitVec 64} {bs bs' : List (List UInt8)} (h : numbered t a bs = numbered t b bs') :
    bs = bs' ∧ (bs ≠ [] → a = b) := by
  induction bs generalizing t bs' with
  | nil =>
      rcases bs' with _ | ⟨c, _ | ⟨c', cs⟩⟩
      · exact ⟨rfl, fun hne => absurd rfl hne⟩
      · cases h
      · cases h
  | cons x bs ih =>
      rcases bs with _ | ⟨x', bs⟩
      · rcases bs' with _ | ⟨c, _ | ⟨c', cs⟩⟩
        · cases h
        · cases h
          exact ⟨rfl, fun _ => rfl⟩
        · simp [numbered] at h
      · rcases bs' with _ | ⟨c, _ | ⟨c', cs⟩⟩
        · cases h
        · simp [numbered] at h
        · rw [numbered, numbered, List.cons.injEq, Prod.mk.injEq] at h
          obtain ⟨heq, htotal⟩ := ih h.2
          exact ⟨by rw [h.1.1, heq], fun _ => htotal (List.cons_ne_nil _ _)⟩

/-- Bytes that start with a message and are at most a block longer. -/
def Carries (bytes msg : List UInt8) : Prop :=
  bytes.take msg.length = msg ∧ msg.length ≤ bytes.length ∧ bytes.length ≤ msg.length + 64

/-- Together with the byte count they determine the message, even when the count wraps. -/
theorem carries_inj {bytes msg msg' : List UInt8} (h : Carries bytes msg) (h' : Carries bytes msg') {c : Nat}
    (hcount : BitVec.ofNat 64 (msg.length + c) = BitVec.ofNat 64 (msg'.length + c)) : msg = msg' := by
  have hnat := congrArg BitVec.toNat hcount
  rw [BitVec.toNat_ofNat, BitVec.toNat_ofNat] at hnat
  have hbound := h.2
  have hbound' := h'.2
  have hlen : msg.length = msg'.length := by omega
  rw [← h.1, ← h'.1, hlen]

theorem flatten_zeroPad (m : List UInt8) : (chunks 64 (Blake2s.zeroPad m)).flatten = Blake2s.zeroPad m := by
  have hflat := flatten_chunks (by decide) (n := 64) (Blake2s.zeroPad m)
  have hrest : rest 64 (Blake2s.zeroPad m) = [] := by
    rw [← List.length_eq_zero_iff, length_rest, Blake2s.zeroPad, List.length_append, List.length_replicate]
    omega
  rwa [hrest, List.append_nil] at hflat

theorem carries_zeroPad (m : List UInt8) : Carries (Blake2s.zeroPad m) m :=
  ⟨Blake2s.zeroPad_take m, (Blake2s.length_zeroPad m).1, Nat.le_of_lt (Blake2s.length_zeroPad m).2⟩

theorem carries_unkeyed (m : List UInt8) : Carries (Blake2s.dataBlocks [] m).flatten m := by
  rw [Blake2s.dataBlocks]
  split
  case isTrue h =>
    rw [h.2]
    exact ⟨rfl, by decide, by decide⟩
  case isFalse =>
    have hnone : chunks 64 (Blake2s.zeroPad []) = [] := chunks_short (by decide)
    rw [hnone, List.nil_append, flatten_zeroPad]
    exact carries_zeroPad m

theorem flatten_keyed (k : Bytes32) (m : List UInt8) :
    (Blake2s.dataBlocks (keyBytes (some k)) m).flatten = padBlock k.val ++ Blake2s.zeroPad m := by
  have hsome := keyBytes_some_ne_nil k
  have hkey : chunks 64 (Blake2s.zeroPad (keyBytes (some k))) = [padBlock k.val] :=
    chunks_zeroPad_last hsome (by rw [keyBytes, k.property]; decide)
  rw [Blake2s.dataBlocks, if_neg fun h => hsome h.1, hkey, List.flatten_append, flatten_zeroPad, List.flatten_singleton]

/-- There is always a last block. -/
theorem dataBlocks_ne_nil (key : Option Bytes32) (msg : List UInt8) : Blake2s.dataBlocks (keyBytes key) msg ≠ [] := by
  intro hnone
  have hflat := congrArg List.flatten hnone
  cases key with
  | none =>
      rw [Blake2s.dataBlocks] at hnone
      split at hnone
      · cases hnone
      case isFalse h =>
        have hmsg : msg ≠ [] := fun hmsg => h ⟨rfl, hmsg⟩
        exact chunks_zeroPad_ne_nil hmsg (List.append_eq_nil_iff.mp hnone).2
  | some k =>
      have hlen := congrArg List.length hflat
      rw [flatten_keyed, padBlock, List.length_append, List.length_append, k.property] at hlen
      simp at hlen

/-- The initial state says whether there is a key. -/
theorem initialState_mode (k : Bytes32) : initialState (some k) ≠ initialState none := by
  intro h
  have hword := congrFun (congrArg lanes h) 0
  rw [lanes_initialState, lanes_initialState, Function.update_self, Function.update_self, keyBytes, keyBytes,
    k.property, BitVec.xor_left_inj, BitVec.xor_right_inj] at hword
  exact absurd hword (by decide)

theorem calls_none_inj {msg msg' : List UInt8} (h : calls none msg = calls none msg') : msg = msg' := by
  rw [calls_eq_numbered, calls_eq_numbered] at h
  obtain ⟨hblocks, htotal⟩ := numbered_inj h
  have hcount := htotal (dataBlocks_ne_nil none msg)
  have hcarries := carries_unkeyed msg
  rw [show Blake2s.dataBlocks [] msg = Blake2s.dataBlocks [] msg' from hblocks] at hcarries
  exact carries_inj (c := 0) hcarries (carries_unkeyed msg') hcount

theorem calls_some_inj {k k' : Bytes32} {msg msg' : List UInt8} (h : calls (some k) msg = calls (some k') msg') :
    k = k' ∧ msg = msg' := by
  rw [calls_eq_numbered, calls_eq_numbered] at h
  obtain ⟨hblocks, htotal⟩ := numbered_inj h
  have hcount := htotal (dataBlocks_ne_nil (some k) msg)
  rw [totalBytes, totalBytes, if_neg (keyBytes_some_ne_nil k), if_neg (keyBytes_some_ne_nil k')] at hcount
  have hbytes := congrArg List.flatten hblocks
  rw [flatten_keyed, flatten_keyed, padBlock, padBlock, k.property, k'.property, List.append_assoc,
    List.append_assoc] at hbytes
  obtain ⟨hkey, hrest⟩ := List.append_inj hbytes (k.property.trans k'.property.symm)
  have hmsg := carries_zeroPad msg
  rw [List.append_cancel_left hrest] at hmsg
  exact ⟨Subtype.ext hkey, carries_inj hmsg (carries_zeroPad msg') hcount⟩

theorem calls_inj {key key' : Option Bytes32} {msg msg' : List UInt8} (hstate : initialState key = initialState key')
    (h : calls key msg = calls key' msg') : key = key' ∧ msg = msg' := by
  cases key with
  | none =>
      cases key' with
      | none => exact ⟨rfl, calls_none_inj h⟩
      | some k' => exact absurd hstate.symm (initialState_mode k')
  | some k =>
      cases key' with
      | none => exact absurd hstate (initialState_mode k)
      | some k' =>
          obtain ⟨rfl, rfl⟩ := calls_some_inj h
          exact ⟨rfl, rfl⟩

/-- `khash` and `uhash` are the RFC's hash at every key, every message and every length, and are
folds of the compression function over the calls of `calls`.  No two pairs of a key and a
message have the same calls from the same initial state. -/
theorem hash_exact :
    (∀ key msg, (khash key msg).val = Blake2s.blake2s key.val 32 msg) ∧
    (∀ msg, (uhash msg).val = Blake2s.blake2s [] 32 msg) ∧
    (∀ key msg, khash key msg = digestBytes (feed (initialState (some key)) (calls (some key) msg))) ∧
    (∀ msg, uhash msg = digestBytes (feed (initialState none) (calls none msg))) ∧
    ∀ key msg key' msg', initialState key = initialState key' → calls key msg = calls key' msg' →
      key = key' ∧ msg = msg' :=
  ⟨fun key => blake2s_eq (some key), blake2s_eq none, fun key => blake2s_eq_feed (some key), blake2s_eq_feed none,
    fun _ _ _ _ => calls_inj⟩

theorem hash_exact_abc :
    (uhash [0x61, 0x62, 0x63]).val = Blake2s.blake2s [] 32 [0x61, 0x62, 0x63] ∧
      (none : Option Bytes32) = none ∧ ([0x61, 0x62, 0x63] : List UInt8) = [0x61, 0x62, 0x63] :=
  ⟨hash_exact.2.1 _, hash_exact.2.2.2.2 none _ none _ rfl rfl⟩

/-- The calls alone do not say whether there is a key: the key of zeros with the empty message is
fed like the unkeyed message of sixty-four zeros. -/
theorem calls_mode_collision :
    ¬ ∀ key msg key' msg', calls key msg = calls key' msg' → key = key' ∧ msg = msg' := by
  intro h
  have hsame : calls (some (zeros 32)) [] = calls none (List.replicate 64 0) := by decide
  cases (h _ _ _ _ hsame).1

end Yuva.Hash
