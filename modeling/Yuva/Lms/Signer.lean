/-
# `Yuva.Lms.Signer` — the signer, and that its signatures verify

The `signer` module of `tb-encode/src/lmsig.rs`: deterministic keys from a seed,
the tree of one-time public keys, and `sign`.  It lays its hash inputs out in
buffers of its own rather than through the verifier's streaming calls.

**Completeness.**  Each step of the verifier undoes the signer's:

    completing a chain cut at a coefficient gives the whole chain  (`completeChain_chain`)
    so the recomputed one-time key is the signer's                 (`otsKc_signed`)
    climbing the authentication path ends at the public root       (`lmsRoot_authPath`)
    and parsing the signature gives back what was laid out         (`signature_parses`)

The last theorem puts them together for every supported parameter pair.
-/
import Yuva.Lms.Verify

namespace Yuva.Lms

open Yuva.Bytes

namespace Signer

/-- `x_q[i]`, the start of a chain. -/
def privElt (H : Hash) (iId : Ident) (q i : Nat) (seed : Node) : Node :=
  H (iId.val ++ be 4 q ++ be 2 i ++ [0xff] ++ seed.val)

/-- The chain of `x` from step `lo` to step `hi`. -/
def chain (H : Hash) (iId : Ident) (q i : Nat) (x : List UInt8) (lo hi : Nat) : List UInt8 :=
  (List.range' lo (hi - lo)).foldl
    (fun tmp j => (H (iId.val ++ be 4 q ++ be 2 i ++ [UInt8.ofNat j] ++ tmp)).val) x

/-- The one-time public key of leaf `q`. -/
def otsPubkey (H : Hash) (iId : Ident) (q w p : Nat) (seed : Node) : Node :=
  let maxj := 2 ^ w - 1
  let full := (List.range p).map fun i =>
    chain H iId q i (privElt H iId q i seed).val 0 maxj
  H (iId.val ++ be 4 q ++ be 2 D_PBLC ++ full.flatten)

def leafHash (H : Hash) (iId : Ident) (h q : Nat) (kq : Node) : Node :=
  H (iId.val ++ be 4 (2 ^ h + q) ++ be 2 D_LEAF ++ kq.val)

def intrHash (H : Hash) (iId : Ident) (node : Nat) (left right : Node) : Node :=
  H (iId.val ++ be 4 node ++ be 2 D_INTR ++ (left.val ++ right.val))

/-- The zeroed node array. -/
def zeroNode : Node := ⟨List.replicate 32 0, List.length_replicate⟩

/-- The leaves written into the node array, first to last. -/
def fillLeaves (H : Hash) (iId : Ident) (seed : Node) (w p h : Nat) : Nat → Node :=
  (List.range (2 ^ h)).foldl
    (fun nodes q => Function.update nodes (2 ^ h + q)
      (leafHash H iId h q (otsPubkey H iId q w p seed))) fun _ => zeroNode

/-- The node array of the whole tree; node 1 is the root. -/
def buildTree (H : Hash) (iId : Ident) (seed : Node) (w p h : Nat) : Nat → Node :=
  HeapTree.fill (intrHash H iId) (2 ^ h - 1) (fillLeaves H iId seed w p h)

def publicRoot (H : Hash) (iId : Ident) (seed : Node) (w p h : Nat) : Node :=
  buildTree H iId seed w p h 1

/-- The signature's randomizer `C`. -/
def randomizer (H : Hash) (iId : Ident) (q : Nat) (seed : Node) : Node :=
  H (iId.val ++ be 4 q ++ [0x01] ++ seed.val)

/-- The one-time signature: each chain cut at its coefficient. -/
def otsElements (H : Hash) (iId : Ident) (seed : Node) (q w p ls : Nat) (msg : List UInt8) :
    List (List UInt8) :=
  let c := randomizer H iId q seed
  let qhash := (H (iId.val ++ be 4 q ++ be 2 D_MESG ++ c.val ++ msg)).val
  let qc := withCksm qhash w ls
  (List.range p).map fun i =>
    chain H iId q i (privElt H iId q i seed).val 0 (coef qc i w)

/-- The sibling of each node on the way from leaf `q` to the root. -/
def authPath (H : Hash) (iId : Ident) (seed : Node) (q w p h : Nat) : List (List UInt8) :=
  (HeapTree.siblings (buildTree H iId seed w p h) (2 ^ h + q)).map (·.val)

/-- The bytes written out: `q | otstype | C | y[0..p] | lmstype | path`. -/
def layout (H : Hash) (iId : Ident) (seed : Node) (q w p ls h otstype lmstype : Nat)
    (msg : List UInt8) : List UInt8 :=
  be 4 q ++ (be 4 otstype ++ ((randomizer H iId q seed).val ++
    ((otsElements H iId seed q w p ls msg).flatten ++ (be 4 lmstype ++
      (authPath H iId seed q w p h).flatten))))

/-- Sign `msg` with leaf `q` into a buffer of `outLen` bytes; `none` where the
source returns length 0. -/
def sign (H : Hash) (iId : Ident) (seed : Node) (q w p ls h otstype lmstype : Nat)
    (msg : List UInt8) (outLen : Nat) : Option (List UInt8) :=
  if p > MAX_P ∨ h > MAX_H ∨ q ≥ 2 ^ h ∨ msg.length > MSG_CAP then none
  else if outLen < 4 + 4 + N + N * p + 4 + N * h then none
  else some (layout H iId seed q w p ls h otstype lmstype msg)

end Signer

open Signer

section

variable {H : Hash} {iId : Ident} {seed : Node} {q w p ls h : Nat} {msg : List UInt8}

/-! ## The one-time key -/

/-- The two chain loops meet: cutting a chain at `a` and completing it. -/
theorem completeChain_chain {i a maxj : Nat} (x : List UInt8) (ha : a ≤ maxj) :
    completeChain H iId q i a maxj (chain H iId q i x 0 a) = chain H iId q i x 0 maxj := by
  have hsplit : List.range' 0 (maxj - 0) = List.range' 0 (a - 0) ++ List.range' a (maxj - a) := by
    rw [Nat.sub_zero, Nat.sub_zero]
    have happ := List.range'_append_1 (s := 0) (m := a) (n := maxj - a)
    rw [Nat.zero_add] at happ
    rw [happ]
    congr 1
    omega
  rw [completeChain, chain, chain, hsplit, List.foldl_append]

theorem length_chain {i lo hi : Nat} {x : List UInt8} (hx : x.length = N) :
    (chain H iId q i x lo hi).length = N := length_completeChain H iId q i lo hi hx

theorem length_otsElements : (otsElements H iId seed q w p ls msg).length = p := by
  simp only [otsElements, List.length_map, List.length_range]

theorem otsElements_width {y : List UInt8} (hy : y ∈ otsElements H iId seed q w p ls msg) :
    y.length = N := by
  obtain ⟨i, -, rfl⟩ := List.mem_map.mp hy
  exact length_chain (privElt H iId q i seed).property

/-- The verifier recomputes the signer's one-time public key. -/
theorem otsKc_signed (hp : 0 < p) (hmax : p ≤ MAX_P) (hmsg : msg.length ≤ MSG_CAP) :
    otsKc H iId q w p ls (randomizer H iId q seed).val (otsElements H iId seed q w p ls msg) msg =
      some (otsPubkey H iId q w p seed) := by
  have hguard : ¬ (p > MAX_P ∨ p = 0 ∨ (otsElements H iId seed q w p ls msg).length < p ∨
      msg.length > MSG_CAP) := by
    rw [length_otsElements]
    omega
  rw [otsKc, if_neg hguard, otsPubkey]
  have hz : (List.range p).map (fun i => completeChain H iId q i
        (coef (withCksm (H (iId.val ++ be 4 q ++ be 2 D_MESG ++
          (randomizer H iId q seed).val ++ msg)).val w ls) i w) (2 ^ w - 1)
        ((otsElements H iId seed q w p ls msg).getD i [])) =
      (List.range p).map fun i => chain H iId q i (privElt H iId q i seed).val 0 (2 ^ w - 1) := by
    refine List.map_congr_left fun i hi => ?_
    have hget : (otsElements H iId seed q w p ls msg).getD i [] =
        chain H iId q i (privElt H iId q i seed).val 0
          (coef (withCksm (H (iId.val ++ be 4 q ++ be 2 D_MESG ++
            (randomizer H iId q seed).val ++ msg)).val w ls) i w) := by
      simp [otsElements, List.mem_range.mp hi]
    rw [hget]
    exact completeChain_chain _ (coef_le _ i w)
  simp only [hz]

/-! ## The tree -/

theorem fillLeaves_leaf {n : Nat} (hn : n < 2 ^ h) : fillLeaves H iId seed w p h (2 ^ h + n) =
    leafHash H iId h n (otsPubkey H iId n w p seed) := by
  have hfold : ∀ (m : Nat), n < m → (List.range m).foldl
      (fun nodes q => Function.update nodes (2 ^ h + q)
        (leafHash H iId h q (otsPubkey H iId q w p seed))) (fun _ => zeroNode) (2 ^ h + n) =
      leafHash H iId h n (otsPubkey H iId n w p seed) := by
    intro m
    induction m with
    | zero => intro hm; exact absurd hm (Nat.not_lt_zero n)
    | succ m ih =>
        intro hm
        rw [List.range_succ, List.foldl_append]
        by_cases he : n = m
        · subst he
          exact Function.update_self _ _ _
        · rw [List.foldl_cons, List.foldl_nil, Function.update_of_ne (by omega)]
          exact ih (by omega)
  exact hfold (2 ^ h) hn

theorem buildTree_leaf (hq : q < 2 ^ h) : buildTree H iId seed w p h (2 ^ h + q) =
    leafHash H iId h q (otsPubkey H iId q w p seed) := by
  rw [buildTree, HeapTree.fill_of_lt _ _ _ (by omega), fillLeaves_leaf hq]

theorem length_authPath (hq : q < 2 ^ h) : (authPath H iId seed q w p h).length = h := by
  rw [authPath, List.length_map]
  exact HeapTree.length_siblings _ h _ (by omega) (by rw [Nat.pow_succ]; omega)

theorem authPath_width {s : List UInt8} (hs : s ∈ authPath H iId seed q w p h) : s.length = N := by
  obtain ⟨n, -, rfl⟩ := List.mem_map.mp hs
  exact n.property

/-- The path of leaf `q` leads from its one-time key to the public root. -/
theorem lmsRoot_authPath (hq : q < 2 ^ h) :
    lmsRoot H iId q h (otsPubkey H iId q w p seed).val (authPath H iId seed q w p h) =
      (publicRoot H iId seed w p h).val := by
  -- the verifier's nodes are the bytes of the signer's
  have hclosed : HeapTree.Closed (interior H iId) (2 ^ h - 1)
      (fun n => (buildTree H iId seed w p h n).val) := by
    intro m h1 hm
    have := HeapTree.fill_closed (intrHash H iId) (2 ^ h - 1) (fillLeaves H iId seed w p h) m h1 hm
    simp only [interior, List.append_assoc]
    exact congrArg Subtype.val (this.trans (by simp only [intrHash, List.append_assoc]; rfl))
  have hleaf : (H (iId.val ++ be 4 (2 ^ h + q) ++ be 2 D_LEAF ++
      (otsPubkey H iId q w p seed).val)).val = (buildTree H iId seed w p h (2 ^ h + q)).val := by
    rw [buildTree_leaf hq]
    rfl
  rw [lmsRoot, hleaf]
  refine HeapTree.climb_siblings hclosed _ (2 ^ h + q) 0 (by omega) (by omega) fun k s hs => ?_
  rw [HeapTree.siblings_map] at hs
  rw [Nat.zero_add, List.getD_eq_getElem?_getD, authPath, hs]
  rfl

/-! ## The wire format -/

/-- Strings of `N` bytes, read off one behind the other. -/
theorem map_slice_flatten (rest : List UInt8) {s : List UInt8} {ys : List (List UInt8)} {n off : Nat}
    (hys : ∀ y ∈ ys, y.length = N) (hn : ys.length = n)
    (hs : ∀ i, slice s (off + i * N) N = slice (ys.flatten ++ rest) (i * N) N) :
    (List.range n).map (fun i => slice s (off + i * N) N) = ys := by
  apply List.ext_getElem?
  intro i
  by_cases hi : i < n
  · have hyi : ys[i]? = some ys[i] := List.getElem?_eq_getElem (by omega)
    rw [List.getElem?_map, List.getElem?_range hi, Option.map_some, hyi, hs, Nat.mul_comm, slice_flatten _ hys hyi]
  · rw [List.getElem?_eq_none (by simpa using Nat.le_of_not_lt hi), List.getElem?_eq_none (by omega)]

/-- The signature's fields, as the verifier cuts them out again. -/
theorem signature_parses {otstype lmstype : Nat} {c : List UInt8} {ys path : List (List UInt8)}
    (hq : q < 2 ^ 32) (hots : otstype < 2 ^ 32) (hlms : lmstype < 2 ^ 32) (hc : c.length = N)
    (hys : ∀ y ∈ ys, y.length = N) (hp : ys.length = p) (hpath : ∀ s ∈ path, s.length = N)
    (hh : path.length = h) {sig : List UInt8}
    (hsig : sig = be 4 q ++ (be 4 otstype ++ (c ++ (ys.flatten ++
      (be 4 lmstype ++ path.flatten))))) :
    sig.length = 8 + N + N * p + 4 + N * h ∧ unbe (slice sig 0 4) = q ∧
    unbe (slice sig 4 4) = otstype ∧ slice sig 8 N = c ∧
    (List.range p).map (fun i => slice sig (8 + N + i * N) N) = ys ∧
    unbe (slice sig (8 + N + N * p) 4) = lmstype ∧
    (List.range h).map (fun i => slice sig (8 + N + N * p + 4 + i * N) N) = path := by
  have hyl : ys.flatten.length = N * p := by rw [length_flatten_of_eq hys, hp]
  have hpl : path.flatten.length = N * h := by rw [length_flatten_of_eq hpath, hh]
  have hword : ∀ n, n < 2 ^ 32 → unbe (be 4 n) = n := fun n hn => by
    rw [unbe_be]
    exact Nat.mod_eq_of_lt hn
  -- what is left of the signature after each field
  have htail : ∀ off n, 8 + N ≤ off → slice sig off n =
      slice (ys.flatten ++ (be 4 lmstype ++ path.flatten)) (off - (8 + N)) n := by
    intro off n hoff
    rw [hsig, slice_skip _ n (by rw [length_be]; omega), slice_skip _ n (by simp only [length_be]; omega),
      slice_skip _ n (by simp only [length_be, hc]; omega)]
    simp only [length_be, hc]
    congr 1
  have htail' : ∀ off n, 8 + N + N * p + 4 ≤ off → slice sig off n =
      slice path.flatten (off - (8 + N + N * p + 4)) n := by
    intro off n hoff
    rw [htail off n (by omega), slice_skip _ n (by rw [hyl]; omega),
      slice_skip _ n (by rw [length_be, hyl]; omega), length_be, hyl]
    congr 1
    omega
  refine ⟨?_, ?_, ?_, ?_, ?_, ?_, ?_⟩
  · rw [hsig]
    simp only [List.length_append, length_be, hc, hyl, hpl]
    omega
  · rw [hsig, slice_here _ _ (length_be 4 _), hword q hq]
  · rw [hsig, slice_skip _ 4 (by rw [length_be]), length_be, Nat.sub_self,
      slice_here _ _ (length_be 4 _), hword otstype hots]
  · rw [hsig, slice_skip _ N (by rw [length_be]; omega), slice_skip _ N (by simp only [length_be]; omega)]
    simp only [length_be]
    exact slice_here _ _ hc
  · refine map_slice_flatten (be 4 lmstype ++ path.flatten) hys hp fun i => ?_
    rw [htail _ _ (by omega), Nat.add_sub_cancel_left]
  · rw [htail _ _ (by omega), slice_skip _ 4 (by rw [hyl]; omega), hyl, Nat.add_sub_cancel_left,
      Nat.sub_self, slice_here _ _ (length_be 4 _), hword lmstype hlms]
  · refine map_slice_flatten [] hpath hh fun i => ?_
    rw [htail' _ _ (by omega), Nat.add_sub_cancel_left, List.append_nil]

end

/-- Completeness: what the signer signs, the verifier accepts, for every hash
function, identifier, seed, supported parameter pair, leaf and message. -/
theorem sign_verifies (H : Hash) (iId : Ident) (seed : Node) {q w p ls h otstype lmstype : Nat}
    (hots : otsParams otstype = some (w, p, ls)) (hlms : lmsHeight lmstype = some h)
    (hq : q < 2 ^ h) {msg : List UInt8} (hmsg : msg.length ≤ MSG_CAP) {outLen : Nat}
    (hout : 4 + 4 + N + N * p + 4 + N * h ≤ outLen) :
    ∃ sig, sign H iId seed q w p ls h otstype lmstype msg outLen = some sig ∧
      lmsVerify H (publicRoot H iId seed w p h) iId msg sig = true := by
  have hparams : 0 < p ∧ p ≤ MAX_P ∧ otstype < 2 ^ 32 := by
    rcases otsParams_cases hots with ⟨rfl, -, rfl, -⟩ | ⟨rfl, -, rfl, -⟩ <;> decide
  have hheight : 0 < h ∧ h ≤ MAX_H ∧ lmstype < 2 ^ 32 ∧ 2 ^ h ≤ 2 ^ 32 := by
    rcases lmsHeight_cases hlms with ⟨rfl, rfl⟩ | ⟨rfl, rfl⟩ <;> decide
  obtain ⟨hp, hpmax, hots32⟩ := hparams
  obtain ⟨hh, hhmax, hlms32, hh32⟩ := hheight
  refine ⟨layout H iId seed q w p ls h otstype lmstype msg, ?_, ?_⟩
  · rw [sign, if_neg (by omega), if_neg (by omega)]
  · obtain ⟨hlen, hpq, hpots, hpc, hpys, hplms, hppath⟩ := signature_parses (q := q) (p := p) (h := h)
      (Nat.lt_of_lt_of_le hq hh32) hots32 hlms32 (randomizer H iId q seed).property
      (fun y hy => otsElements_width hy) length_otsElements (fun s hs => authPath_width hs)
      (length_authPath hq)
      (rfl : layout H iId seed q w p ls h otstype lmstype msg = _)
    rw [lmsVerify, if_neg (by omega), hpots, hots]
    simp only
    rw [if_neg (by omega), hplms, hlms]
    simp only [lmsVerifyParams]
    rw [if_neg (by omega), if_neg (by omega), hpq, if_neg (by omega), if_neg (by omega), hpc, hpys,
      hppath, otsKc_signed hp hpmax hmsg]
    simp only
    rw [lmsRoot_authPath hq]
    exact ctEq_self _

/-- A stand-in hash: the last 32 bytes of the zero-padded input. -/
def lastBytes : Hash := fun bytes =>
  ⟨(bytes.reverse ++ List.replicate 32 0).take 32, by
    rw [List.length_take, List.length_append, List.length_replicate]
    omega⟩

/-- The operational pair W4/H10, at its last leaf. -/
theorem sign_verifies_w4_h10 : ∃ sig,
    sign lastBytes ⟨List.replicate 16 7, List.length_replicate⟩ zeroNode 1023 4 67 4 10
      LMOTS_SHA256_N32_W4 LMS_SHA256_M32_H10 [1, 2, 3] 2508 = some sig ∧
    lmsVerify lastBytes (publicRoot lastBytes ⟨List.replicate 16 7, List.length_replicate⟩ zeroNode
      4 67 10) ⟨List.replicate 16 7, List.length_replicate⟩ [1, 2, 3] sig = true :=
  sign_verifies lastBytes _ zeroNode (by decide) (by decide) (by decide) (by decide) (by decide)

end Yuva.Lms
