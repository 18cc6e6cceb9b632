/-
# `Yuva.Lms.Total` — the verifier, access by access

`lms_verify` of `tb-encode/src/lmsig.rs` with the reads, the stores, the shifts and the sums that it
is made of, each of which can fail (`none` is a panic), and with the streaming SHA-256 of
`Yuva.Hash.Sha256` that it calls.  The signature is any byte string: its type codes fix every offset,
and the length is compared with them before anything behind the codes is read.

**Proved here.**  Nothing fails: the verifier computes the one of `Yuva.Lms.Verify`, with the digest of
FIPS 180-4 for the hash (`lmsVerifyChecked_eq`); and what it accepts has the length and the leaf index
that its type codes admit (`lmsVerify_bounds`).
-/
import Yuva.Lms.Checksum
import Yuva.Hash.Sha256

namespace Yuva.Lms

open Yuva.Bytes Yuva.Checked Yuva.Stores

/-! ## The code -/

def coefChecked (s : List UInt8) (i w : Nat) : Option Nat := do
  let perByte ← divWord 8 w
  let bits ← word (i * w)
  let byte ← byteAt s (bits / 8)
  let field ← modWord i perByte
  let before ← word32 (w * field)
  let used ← word32 (before + w)
  let shift ← subWord 8 used
  let bit ← shl32 1 w
  let mask ← subWord bit 1
  let shifted ← shr32 byte.toNat shift
  return shifted &&& mask

def cksmChecked (q : List UInt8) (w ls : Nat) : Option Nat := do
  let u ← divWord (8 * N) w
  let bit ← shl32 1 w
  let maxc ← subWord bit 1
  let sum ← (List.range u).foldlM (fun sum i => do
    let c ← coefChecked q i w
    let missing ← subWord maxc c
    return (sum + missing) % 2 ^ 32) 0
  let shifted ← shl32 sum ls
  return shifted &&& 0xFFFF

/-- A digest over several calls of `update`. -/
def digestOf (pieces : List (List UInt8)) : Option (List UInt8) := do
  let s ← pieces.foldlM Sha.update Sha.new
  Sha.finalize s

/-- One step of a chain. -/
def chainStep (iId : Ident) (qbe ibe tmp : List UInt8) (j : Nat) : Option (List UInt8) :=
  digestOf [iId.val, qbe, ibe, [UInt8.ofNat j], tmp]

/-- One turn of the loop over the chains: complete the chain and absorb its end. -/
def otsTurn (iId : Ident) (qbe qc : List UInt8) (y : List (List UInt8)) (w maxj : Nat) (hk : Sha.Sha256) (i : Nat) :
    Option Sha.Sha256 := do
  let a ← coefChecked qc i w
  let ibe := be 2 i
  let tmp ← y[i]?
  let z ← (List.range' a (maxj - a)).foldlM (chainStep iId qbe ibe) tmp
  Sha.update hk z

/-- The array `qc` of `ots_kc`, filled. -/
def coefString (qhash : List UInt8) (ck : Nat) : Option (List UInt8) := do
  let qc ← copyLoop qhash N (List.replicate (N + 2) 0) 0
  let ckb := be 2 ck
  let hi ← byteAt ckb 0
  let qc ← setAt qc N hi
  let lo ← byteAt ckb 1
  setAt qc (N + 1) lo

/-- `ots_kc`, and what it leaves in `out`. -/
def otsKcChecked (iId : Ident) (q w p ls : Nat) (c : List UInt8) (y : List (List UInt8)) (msg out : List UInt8) :
    Option (Bool × List UInt8) :=
  if p > MAX_P ∨ p = 0 ∨ y.length < p ∨ msg.length > MSG_CAP then some (false, out)
  else do
    let qbe := be 4 q
    let qhash ← digestOf [iId.val, qbe, be 2 D_MESG, c, msg]
    let ck ← cksmChecked qhash w ls
    let qc ← coefString qhash ck
    let hk ← [iId.val, qbe, be 2 D_PBLC].foldlM Sha.update Sha.new
    let bit ← shl32 1 w
    let maxj ← subWord bit 1
    let hk ← (List.range p).foldlM (otsTurn iId qbe qc y w maxj) hk
    let kc ← Sha.finalize hk
    let out ← copyLoop kc N out 0
    return (true, out)

/-- The walk up the path; `i` counts its nodes. -/
def climbChecked (iId : Ident) (path : List (List UInt8)) (nodeNum i : Nat) (tmp : List UInt8) :
    Option (List UInt8) :=
  if h : 1 < nodeNum then do
    let sib ← path[i]?
    let tmp ←
      if nodeNum &&& 1 = 1 then digestOf [iId.val, be 4 (nodeNum / 2), be 2 D_INTR, sib, tmp]
      else digestOf [iId.val, be 4 (nodeNum / 2), be 2 D_INTR, tmp, sib]
    climbChecked iId path (nodeNum / 2) (i + 1) tmp
  else some tmp
termination_by nodeNum

def lmsRootChecked (iId : Ident) (q h : Nat) (kc : List UInt8) (path : List (List UInt8)) :
    Option (List UInt8) := do
  let leaves ← shl32 1 h
  let nodeNum ← word32 (leaves + q)
  let tmp ← digestOf [iId.val, be 4 nodeNum, be 2 D_LEAF, kc]
  climbChecked iId path nodeNum 0 tmp

def ctEqChecked (a b : List UInt8) : Option Bool := do
  let acc ← (List.range N).foldlM (fun acc i => do
    let x ← byteAt a i
    let y ← byteAt b i
    return acc ||| (x ^^^ y)) 0
  return acc == 0

/-- One turn of a loop that copies fields of 32 bytes into the rows of an array. -/
def rowTurn (sig : List UInt8) (off : Nat) (rows : List (List UInt8)) (i : Nat) : Option (List (List UInt8)) := do
  let base ← word (off + i * N)
  let row ← rows[i]?
  let row ← copyFrom sig base 0 0 N row
  return rows.set i row

/-- `[[0u8; N]; k]`. -/
def zeroRows (k : Nat) : List (List UInt8) := List.replicate k (List.replicate N 0)

/-- `&rows[..n]`. -/
def cutRows (rows : List (List UInt8)) (n : Nat) : Option (List (List UInt8)) :=
  if n ≤ rows.length then some (rows.take n) else none

def lmsVerifyParamsChecked (root : Node) (iId : Ident) (msg sig : List UInt8) (w p ls h : Nat) : Option Bool :=
  if p = 0 ∨ p > MAX_P ∨ h > MAX_H ∨ h = 0 then some false
  else if sig.length < 8 + N then some false
  else do
    let q ← (cut sig 0 4).map unbe
    let leaves ← shl32 1 h
    if q ≥ leaves then return false
    let cOff := 8
    let yOff := cOff + N
    let lmstypeOff ← word (yOff + N * p)
    let pathOff ← word (lmstypeOff + 4)
    let total ← word (pathOff + N * h)
    if sig.length ≠ total then return false
    let c ← copyFrom sig cOff 0 0 N (List.replicate N 0)
    let y ← (List.range p).foldlM (rowTurn sig yOff) (zeroRows MAX_P)
    let path ← (List.range h).foldlM (rowTurn sig pathOff) (zeroRows MAX_H)
    let y ← cutRows y p
    let (ok, kc) ← otsKcChecked iId q w p ls c y msg (List.replicate N 0)
    if ok = false then return false
    let path ← cutRows path h
    let tc ← lmsRootChecked iId q h kc path
    ctEqChecked tc root.val

def lmsVerifyChecked (root : Node) (iId : Ident) (msg sig : List UInt8) : Option Bool :=
  if sig.length < 4 + 4 + N + 4 then some false
  else do
    let otstype ← (cut sig 4 4).map unbe
    match otsParams otstype with
    | none => return false
    | some (w, p, ls) =>
        let lmstypeOff ← word (8 + N + N * p)
        let lmstypeEnd ← word (lmstypeOff + 4)
        if sig.length < lmstypeEnd then return false
        let lmstype ← (cut sig lmstypeOff 4).map unbe
        match lmsHeight lmstype with
        | none => return false
        | some h => lmsVerifyParamsChecked root iId msg sig w p ls h

/-! ## Coefficients -/

theorem Fields.width_le {w v k ls : Nat} (hF : Fields w v k ls) : w ≤ 8 :=
  hF.byte ▸ Nat.le_mul_of_pos_right w hF.perByte_pos

/-- A coefficient of a string no longer than a digest with its checksum. -/
theorem coefChecked_eq {w v k ls : Nat} (hF : Fields w v k ls) {s : List UInt8} {i : Nat} (hs : s.length ≤ N + 2)
    (hi : i < s.length * v) : coefChecked s i w = some (coef s i w) := by
  have hw := hF.width_pos
  have hle := hF.width_le
  have hlen : s.length ≤ 34 := hs
  have hbits : i * w < 8 * s.length := by
    calc i * w < s.length * v * w := Nat.mul_lt_mul_of_pos_right hi hw
      _ = w * v * s.length := by ac_rfl
      _ = 8 * s.length := by rw [hF.byte]
  have hperByte : 0 < 8 / w := Nat.div_pos hle hw
  have hused : w * (i % (8 / w)) + w ≤ 8 := by
    calc w * (i % (8 / w)) + w = w * (i % (8 / w) + 1) := (Nat.mul_succ w _).symm
      _ ≤ w * (8 / w) := Nat.mul_le_mul_left w (Nat.mod_lt i hperByte)
      _ ≤ 8 := Nat.mul_div_le 8 w
  rw [coefChecked, divWord_eq hw, some_bind, word_eq (by omega), some_bind, byteAt_eq (by omega), some_bind,
    modWord_eq hperByte, some_bind, word32_eq (by omega), some_bind, word32_eq (by omega), some_bind,
    subWord_eq hused, some_bind, shl32_one (by omega), some_bind, subWord_eq Nat.one_le_two_pow, some_bind,
    shr32_eq (by omega), some_bind]
  rfl

theorem cksmChecked_eq {w v k ls : Nat} (hF : Fields w v k ls) (q : Node) :
    cksmChecked q.val w ls = some (cksm q.val w ls) := by
  have hw := hF.width_pos
  have hle := hF.width_le
  have hshift := hF.shift
  have hu : 8 * N / w = N * v := hF.messageFields
  have hsum : (List.range (N * v)).foldlM (fun sum i => do
      let c ← coefChecked q.val i w
      let missing ← subWord (2 ^ w - 1) c
      return (sum + missing) % 2 ^ 32) 0 =
        some ((List.range (N * v)).foldl (fun sum i => (sum + (2 ^ w - 1 - coef q.val i w)) % 2 ^ 32) 0) := by
    refine foldlM_eq_foldl ?_
    intro i hi sum
    have hread := coefChecked_eq hF (s := q.val) (by rw [q.property, N]; decide)
      (by rw [q.property]; exact List.mem_range.mp hi)
    rw [hread, some_bind, subWord_eq (coef_le q.val i w), some_bind]
    rfl
  rw [cksmChecked, divWord_eq hw, some_bind, shl32_one (by omega), some_bind, subWord_eq Nat.one_le_two_pow,
    some_bind, hu, hsum, some_bind, shl32_eq (by omega), some_bind, cksm, hu]
  rfl

/-! ## Chains -/

/-- The hash that the streaming calls compute. -/
def sha : Hash := fun m => ⟨Sha2.sha256 m, Sha2.length_sha256 m⟩

theorem digestOf_eq {pieces : List (List UInt8)} {m : List UInt8} (h : pieces.flatten = m) :
    digestOf pieces = some (sha m).val := h ▸ Sha.streamed_eq pieces

theorem chain_eq (iId : Ident) (q i a maxj : Nat) (y : List UInt8) :
    (List.range' a (maxj - a)).foldlM (chainStep iId (be 4 q) (be 2 i)) y =
      some (completeChain sha iId q i a maxj y) :=
  foldlM_eq_foldl fun j _ tmp => digestOf_eq (by simp)

/-- A streaming state that has been given the bytes `m`. -/
structure Absorbed (s : Sha.Sha256) (m : List UInt8) : Prop where
  holds : Sha.Holds s m
  count : s.totalLen = .ofNat 64 m.length

theorem absorbed_pieces (pieces : List (List UInt8)) :
    ∃ s, pieces.foldlM Sha.update Sha.new = some s ∧ Absorbed s pieces.flatten := by
  obtain ⟨s, hrun, hholds, hcount⟩ := Sha.updates_holds Sha.holds_new rfl pieces
  exact ⟨s, hrun, hholds, hcount⟩

theorem finalize_absorbed {s : Sha.Sha256} {m : List UInt8} (h : Absorbed s m) :
    Sha.finalize s = some (sha m).val := Sha.finalize_eq h.holds h.count

variable {w v k ls : Nat}

theorem otsTurn_absorbed (hF : Fields w v k ls) {iId : Ident} {q : Nat} {qc : List UInt8} {y : List (List UInt8)}
    {hk : Sha.Sha256} {m : List UInt8} {i : Nat} (hqc : qc.length = N + 2) (hi : i < (N + 2) * v)
    (hy : i < y.length) (h : Absorbed hk m) :
    ∃ hk', otsTurn iId (be 4 q) qc y w (2 ^ w - 1) hk i = some hk' ∧
      Absorbed hk' (m ++ completeChain sha iId q i (coef qc i w) (2 ^ w - 1) (y.getD i [])) := by
  obtain ⟨hk', hrun, hholds, hcount⟩ := Sha.update_holds h.holds h.count
    (completeChain sha iId q i (coef qc i w) (2 ^ w - 1) (y.getD i []))
  refine ⟨hk', ?_, hholds, hcount⟩
  rw [otsTurn, coefChecked_eq hF (by rw [hqc]) (by rwa [hqc]), some_bind]
  dsimp only
  rw [getElem?_of_lt hy [], some_bind, chain_eq, some_bind, hrun]

/-- The chains, one behind the other. -/
def chainEnds (iId : Ident) (q w : Nat) (qc : List UInt8) (y : List (List UInt8)) (n : Nat) : List UInt8 :=
  ((List.range n).map fun i => completeChain sha iId q i (coef qc i w) (2 ^ w - 1) (y.getD i [])).flatten

theorem otsLoop_absorbed (hF : Fields w v k ls) (iId : Ident) (q : Nat) {p : Nat} {qc : List UInt8}
    {y : List (List UInt8)} {hk : Sha.Sha256} {m : List UInt8} (hqc : qc.length = N + 2) (hp : p ≤ (N + 2) * v)
    (hy : p ≤ y.length) (h : Absorbed hk m) :
    ∃ hk', (List.range p).foldlM (otsTurn iId (be 4 q) qc y w (2 ^ w - 1)) hk = some hk' ∧
      Absorbed hk' (m ++ chainEnds iId q w qc y p) := by
  refine foldlM_range (I := fun i s => Absorbed s (m ++ chainEnds iId q w qc y i)) ?_ ?_
  · rwa [chainEnds, List.range_zero, List.map_nil, List.flatten_nil, List.append_nil]
  · intro i hi s hs
    obtain ⟨s', hrun, habsorbed⟩ := otsTurn_absorbed hF (q := q) hqc (Nat.lt_of_lt_of_le hi hp)
      (Nat.lt_of_lt_of_le hi hy) hs
    refine ⟨s', hrun, ?_⟩
    rwa [chainEnds, List.range_succ, List.map_append, List.flatten_append, List.map_singleton,
      List.flatten_singleton, ← List.append_assoc]

theorem coefString_eq {qhash : List UInt8} {ck : Nat} (hlen : qhash.length = N) :
    coefString qhash ck = some (qhash ++ be 2 ck) := by
  have hroom : (List.replicate (N + 2) (0 : UInt8)).length = N + 2 := List.length_replicate
  have hbytes : be 2 ck = [(be 2 ck).getD 0 0, (be 2 ck).getD 1 0] := by simp [be, le]
  have hfull : (qhash ++ [(be 2 ck).getD 0 0] ++ [(be 2 ck).getD 1 0]).length =
      (List.replicate (N + 2) (0 : UInt8)).length := by
    simp [hlen]
  rw [coefString, copyLoop_eq hlen (by omega), some_bind]
  dsimp only
  rw [byteAt_eq (by rw [length_be]; decide), some_bind, setAt_front N hlen (by omega), some_bind,
    byteAt_eq (by rw [length_be]; decide), some_bind, setAt_front (N + 1) (by simp [hlen]) (by omega),
    splice_all hfull, List.append_assoc]
  exact congrArg (fun bs => some (qhash ++ bs)) hbytes.symm

/-- A digest copied over another. -/
theorem copyLoop_node (kc : Node) {out : List UInt8} (hout : out.length = N) :
    copyLoop kc.val N out 0 = some kc.val := by
  have hkc : kc.val.length = N := kc.property
  rw [copyLoop_eq hkc (by omega), splice_all (hkc.trans hout.symm)]

theorem otsKcChecked_eq (hF : Fields w v k ls) {iId : Ident} {q p : Nat} {c : List UInt8} {y : List (List UInt8)}
    {msg out : List UInt8} (hp : p = N * v + k) (hout : out.length = N) :
    otsKcChecked iId q w p ls c y msg out =
      some (match otsKc sha iId q w p ls c y msg with
        | none => (false, out)
        | some kc => (true, kc.val)) := by
  rw [otsKcChecked, otsKc]
  split
  · rfl
  case isFalse hguard =>
    have hrows : p ≤ y.length := by omega
    have hfields : p ≤ (N + 2) * v := by
      have htwo := hF.two_bytes
      rw [Nat.add_mul]
      omega
    have hle := hF.width_le
    generalize hm : iId.val ++ be 4 q ++ be 2 D_MESG ++ c ++ msg = m
    have hqhash : digestOf [iId.val, be 4 q, be 2 D_MESG, c, msg] = some (sha m).val := digestOf_eq (by simp [← hm])
    have hqc : (withCksm (sha m).val w ls).length = N + 2 := by
      rw [withCksm, List.length_append, length_be, (sha m).property, N]
    obtain ⟨hk, hfirst, hbegun⟩ := absorbed_pieces [iId.val, be 4 q, be 2 D_PBLC]
    obtain ⟨hk', hloop, hdone⟩ := otsLoop_absorbed hF iId q hqc hfields hrows hbegun
    have hend : iId.val ++ be 4 q ++ be 2 D_PBLC ++ chainEnds iId q w (withCksm (sha m).val w ls) y p =
        [iId.val, be 4 q, be 2 D_PBLC].flatten ++ chainEnds iId q w (withCksm (sha m).val w ls) y p := by
      simp
    dsimp only
    rw [hqhash, some_bind, cksmChecked_eq hF, some_bind, coefString_eq (sha m).property, some_bind, hfirst,
      some_bind, shl32_one (by omega), some_bind, subWord_eq Nat.one_le_two_pow, some_bind, ← withCksm, hloop,
      some_bind, finalize_absorbed hdone, some_bind, copyLoop_node _ hout, some_bind, ← hend]
    rfl

/-! ## The path -/

theorem interior_eq (iId : Ident) (node : Nat) (left right : List UInt8) :
    digestOf [iId.val, be 4 node, be 2 D_INTR, left, right] = some (interior sha iId node left right) :=
  digestOf_eq (by simp)

/-- A node of depth `d` is climbed in `d` steps. -/
theorem climbChecked_eq {iId : Ident} {path : List (List UInt8)} {d nodeNum i : Nat} {tmp : List UInt8}
    (hd : nodeNum < 2 ^ (d + 1)) (hpath : i + d ≤ path.length) :
    climbChecked iId path nodeNum i tmp =
      some (HeapTree.climb (interior sha iId) (fun i => path.getD i []) nodeNum i tmp) := by
  induction d generalizing nodeNum i tmp with
  | zero =>
      have htop : ¬1 < nodeNum := by
        rw [Nat.zero_add, Nat.pow_one] at hd
        omega
      rw [climbChecked, dif_neg htop, HeapTree.climb, dif_neg htop]
  | succ d ih =>
      rw [climbChecked, HeapTree.climb]
      split
      case isFalse => rfl
      case isTrue =>
        have hhalf : nodeNum / 2 < 2 ^ (d + 1) := by
          rw [Nat.pow_succ] at hd
          omega
        rw [getElem?_of_lt (by omega) [], some_bind]
        split
        case isTrue =>
          rw [interior_eq, some_bind]
          exact ih hhalf (by omega)
        case isFalse =>
          rw [interior_eq, some_bind]
          exact ih hhalf (by omega)

theorem lmsRootChecked_eq {iId : Ident} {q h : Nat} {kc : List UInt8} {path : List (List UInt8)} (hh : h ≤ MAX_H)
    (hq : q < 2 ^ h) (hpath : h ≤ path.length) :
    lmsRootChecked iId q h kc path = some (lmsRoot sha iId q h kc path) := by
  have hmax : h ≤ 10 := hh
  have hpow : 2 ^ h ≤ 2 ^ 10 := Nat.pow_le_pow_right (by decide) hmax
  have hdepth : 2 ^ h + q < 2 ^ (h + 1) := by
    rw [Nat.pow_succ]
    omega
  rw [lmsRootChecked, shl32_one (by omega), some_bind, word32_eq (by omega), some_bind, digestOf_eq rfl, some_bind,
    climbChecked_eq hdepth (by omega), lmsRoot]
  simp

theorem length_lmsRoot (iId : Ident) (q h : Nat) (kc : List UInt8) (path : List (List UInt8)) :
    (lmsRoot sha iId q h kc path).length = N :=
  HeapTree.climb_of_join (P := fun (node : List UInt8) => node.length = N)
    (fun _ _ _ => (sha _).property) _ _ _ (sha _).property

theorem ctEqChecked_eq {a b : List UInt8} (ha : a.length = N) (hb : b.length = N) :
    ctEqChecked a b = some (ctEq a b) := by
  have hfold : (List.range N).foldlM (fun acc i => do
      let x ← byteAt a i
      let y ← byteAt b i
      return acc ||| (x ^^^ y)) (0 : UInt8) =
        some ((List.range N).foldl (fun acc i => acc ||| (a.getD i 0 ^^^ b.getD i 0)) 0) := by
    refine foldlM_eq_foldl ?_
    intro i hi acc
    have hlt : i < N := List.mem_range.mp hi
    rw [byteAt_eq (by omega), some_bind, byteAt_eq (by omega), some_bind]
    rfl
  rw [ctEqChecked, hfold, some_bind, ctEq]
  rfl

/-! ## The arrays -/

/-- The fields of 32 bytes from an offset on. -/
def fieldRows (sig : List UInt8) (off n : Nat) : List (List UInt8) :=
  (List.range n).map fun i => slice sig (off + i * N) N

theorem length_fieldRows (sig : List UInt8) (off n : Nat) : (fieldRows sig off n).length = n := by
  rw [fieldRows, List.length_map, List.length_range]

/-- A field copied into an array of its own. -/
theorem copyFrom_field {sig : List UInt8} {off : Nat} (hin : off + N ≤ sig.length) :
    copyFrom sig off 0 0 N (List.replicate N 0) = some (slice sig off N) := by
  have hzero : (List.replicate N (0 : UInt8)).length = N := List.length_replicate
  rw [copyFrom_eq (by omega) (by omega)]
  exact congrArg some (splice_all ((length_slice hin).trans hzero.symm))

/-- One more field in its row. -/
theorem rowTurn_eq {sig : List UInt8} {off i m : Nat} (hi : i < m) (hin : off + i * N + N ≤ sig.length)
    (hsig : sig.length < 2 ^ 64) :
    rowTurn sig off (fieldRows sig off i ++ zeroRows (m - i)) i =
      some (fieldRows sig off (i + 1) ++ zeroRows (m - (i + 1))) := by
  have hlen := length_fieldRows sig off i
  have hnext : zeroRows (m - i) = List.replicate N 0 :: zeroRows (m - (i + 1)) := by
    rw [zeroRows, zeroRows, ← List.replicate_succ]
    congr 1
    omega
  have hgrown : fieldRows sig off (i + 1) = fieldRows sig off i ++ [slice sig (off + i * N) N] := by
    rw [fieldRows, fieldRows, List.range_succ, List.map_append, List.map_singleton]
  rw [rowTurn, word_eq (by omega), some_bind, hnext, List.getElem?_append_right (by omega), hlen, Nat.sub_self,
    List.getElem?_cons_zero, some_bind, copyFrom_field hin, some_bind, List.set_append_right _ _ (by omega), hlen,
    Nat.sub_self, List.set_cons_zero, hgrown, List.append_assoc]
  rfl

theorem rows_eq {sig : List UInt8} {off n m : Nat} (hn : n ≤ m) (hin : off + N * n ≤ sig.length)
    (hsig : sig.length < 2 ^ 64) :
    (List.range n).foldlM (rowTurn sig off) (zeroRows m) = some (fieldRows sig off n ++ zeroRows (m - n)) := by
  have hturn : ∀ i < n, ∀ rows, rows = fieldRows sig off i ++ zeroRows (m - i) →
      ∃ rows', rowTurn sig off rows i = some rows' ∧ rows' = fieldRows sig off (i + 1) ++ zeroRows (m - (i + 1)) := by
    rintro i hi _ rfl
    have hend : off + i * N + N ≤ sig.length := by
      calc off + i * N + N = off + N * (i + 1) := by rw [Nat.mul_comm i, Nat.mul_succ, Nat.add_assoc]
        _ ≤ off + N * n := Nat.add_le_add_left (Nat.mul_le_mul_left N hi) off
        _ ≤ sig.length := hin
    exact ⟨_, rowTurn_eq (by omega) hend hsig, rfl⟩
  obtain ⟨rows, hrun, rfl⟩ := foldlM_range (by rfl) hturn
  exact hrun

theorem cutRows_eq {rows rest : List (List UInt8)} {n : Nat} (h : rows.length = n) :
    cutRows (rows ++ rest) n = some rows := by
  rw [cutRows, if_pos (by rw [List.length_append]; omega), List.take_left' h]

/-! ## The verifier -/

theorem lmsVerifyParamsChecked_eq {w v k ls p h : Nat} (hF : Fields w v k ls) (hp : p = N * v + k) (root : Node)
    (iId : Ident) (msg sig : List UInt8) :
    lmsVerifyParamsChecked root iId msg sig w p ls h = some (lmsVerifyParams sha root iId msg sig w p ls h) := by
  rw [lmsVerifyParamsChecked, lmsVerifyParams]
  split
  · rfl
  case isFalse hguard =>
    split
    · rfl
    case isFalse hshort =>
      have hmaxP : p ≤ MAX_P := by omega
      have hmaxH : h ≤ MAX_H := by omega
      have hy : N * p ≤ 2144 := Nat.mul_le_mul_left N hmaxP
      have hpath : N * h ≤ 320 := Nat.mul_le_mul_left N hmaxH
      have hN : N = 32 := rfl
      have hH : MAX_H = 10 := rfl
      rw [cut_eq (by omega), Option.map_some, some_bind, shl32_one (by omega), some_bind]
      dsimp only
      split
      · rfl
      case isFalse hq =>
        rw [word_eq (by omega), some_bind, word_eq (by omega), some_bind, word_eq (by omega), some_bind]
        split
        · rfl
        case isFalse htotal =>
          have hlen : sig.length = 8 + N + N * p + 4 + N * h := Decidable.not_not.mp htotal
          rw [copyFrom_field (by omega), some_bind, rows_eq hmaxP (by omega) (by omega), some_bind,
            rows_eq hmaxH (by omega) (by omega), some_bind, cutRows_eq (length_fieldRows sig _ p), some_bind,
            otsKcChecked_eq hF hp List.length_replicate, some_bind]
          show _ = some (match otsKc sha iId _ w p ls _ (fieldRows sig (8 + N) p) msg with
            | none => false
            | some kc => ctEq (lmsRoot sha iId _ h kc.val (fieldRows sig (8 + N + N * p + 4) h)) root.val)
          cases otsKc sha iId (unbe (slice sig 0 4)) w p ls (slice sig 8 N) (fieldRows sig (8 + N) p) msg with
          | none => rfl
          | some kc =>
              dsimp only
              rw [if_neg (by decide), cutRows_eq (length_fieldRows sig _ h), some_bind,
                lmsRootChecked_eq hmaxH (Nat.not_le.mp hq) (length_fieldRows sig _ h).ge, some_bind,
                ctEqChecked_eq (length_lmsRoot iId _ h _ _) root.property]

/-- No access of the verifier fails, and what it computes is the verifier over the standard's hash. -/
theorem lmsVerifyChecked_eq (root : Node) (iId : Ident) (msg sig : List UInt8) :
    lmsVerifyChecked root iId msg sig = some (lmsVerify sha root iId msg sig) := by
  rw [lmsVerifyChecked, lmsVerify]
  split
  · rfl
  case isFalse hshort =>
    rw [cut_eq (by omega), Option.map_some, some_bind]
    cases hots : otsParams (unbe (slice sig 4 4)) with
    | none => rfl
    | some params =>
        obtain ⟨w, p, ls⟩ := params
        obtain ⟨v, k, hF, hp⟩ := otsParams_fields hots
        have hsmall : N * p ≤ 2144 := by
          rcases otsParams_cases hots with ⟨-, -, rfl, -⟩ | ⟨-, -, rfl, -⟩
          · decide
          · decide
        have hN : N = 32 := rfl
        dsimp only
        rw [word_eq (by omega), some_bind, word_eq (by omega), some_bind]
        split
        · rfl
        case isFalse hroom =>
          rw [cut_eq (by omega), Option.map_some, some_bind]
          cases lmsHeight (unbe (slice sig (8 + N + N * p) 4)) with
          | none => rfl
          | some h => exact lmsVerifyParamsChecked_eq hF hp root iId msg sig

/-- What the verifier accepts has the length of its two type codes and a leaf of the tree. -/
theorem lmsVerify_bounds {H : Hash} {root : Node} {iId : Ident} {msg sig : List UInt8}
    (haccept : lmsVerify H root iId msg sig = true) :
    ∃ w p ls h, otsParams (unbe (slice sig 4 4)) = some (w, p, ls) ∧
      lmsHeight (unbe (slice sig (8 + N + N * p) 4)) = some h ∧ sig.length = 8 + N + N * p + 4 + N * h ∧
      unbe (slice sig 0 4) < 2 ^ h := by
  rw [lmsVerify] at haccept
  split at haccept
  · cases haccept
  split at haccept
  · cases haccept
  case h_2 w p ls hots =>
    dsimp only at haccept
    split at haccept
    · cases haccept
    split at haccept
    · cases haccept
    case h_2 h hheight =>
      refine ⟨w, p, ls, h, hots, hheight, ?_⟩
      rw [lmsVerifyParams] at haccept
      split at haccept
      · cases haccept
      split at haccept
      · cases haccept
      dsimp only at haccept
      split at haccept
      · cases haccept
      case isFalse hq =>
        split at haccept
        · cases haccept
        case isFalse hlen => exact ⟨Decidable.not_not.mp hlen, Nat.not_le.mp hq⟩

/-- **Totality.**  On every root, identifier, message and byte string the verifier returns: no read, no
store, no shift and no sum of it fails, and no loop goes on.  It returns `true` only if the string is as
long as its two type codes say and its leaf index is below `2 ^ h`. -/
theorem lmsVerify_total (root : Node) (iId : Ident) (msg sig : List UInt8) :
    ∃ accepted : Bool, lmsVerifyChecked root iId msg sig = some accepted ∧
      accepted = lmsVerify sha root iId msg sig ∧
      (accepted = true → ∃ w p ls h, otsParams (unbe (slice sig 4 4)) = some (w, p, ls) ∧
        lmsHeight (unbe (slice sig (8 + N + N * p) 4)) = some h ∧ sig.length = 8 + N + N * p + 4 + N * h ∧
        unbe (slice sig 0 4) < 2 ^ h) :=
  ⟨_, lmsVerifyChecked_eq root iId msg sig, rfl, lmsVerify_bounds⟩

end Yuva.Lms
