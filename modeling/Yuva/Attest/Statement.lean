/-
# `Yuva.Attest.Statement` — the attestation codec

`canon` and `decode` of `tb-encode/src/attest.rs`, store by store and read by read; `none` is
a panic, and no run ends there.

    magic 2 | version 1 | build type 1 | subject 32 | toolchain 32 | builder 16
      | n_materials 1 | n_ledger 1 | materials, 32 each | ledger, 8 + 1 each

`encode` is this layout as one list of bytes.  `canon_eq` says that the stores write it,
`decode_encode` and `encode_of_decode` that `decode` accepts exactly what they wrote.
A decoded statement owns its lists, in tables of the largest size with a count;
`DecodedStatement.statement` is the statement that such a record holds.
-/
import Yuva.Lib.Stores

namespace Yuva.Attest

open Yuva.Bytes Yuva.Checked Yuva.Stores

def ATTEST_DIGEST_LEN : Nat := 32
def BUILDER_ID_LEN : Nat := 16
def MAX_MATERIALS : Nat := 8
def MAX_LEDGER : Nat := 16
def ATTEST_MAGIC : Nat := 0x5959
def ATTEST_VERSION : UInt8 := 1
def ATTEST_PREFIX_LEN : Nat := 2 + 1 + 1 + 32 + 32 + 16 + 1 + 1

abbrev Digest := Block ATTEST_DIGEST_LEN

structure LedgerEntry where
  depTok : BitVec 64
  status : UInt8
deriving DecidableEq

structure AttestStatement where
  subjectDigest : Digest
  builderId : Block BUILDER_ID_LEN
  buildType : UInt8
  toolchainHash : Digest
  materials : List Digest
  ledger : List LedgerEntry
deriving DecidableEq

structure DecodedStatement where
  subjectDigest : Digest
  builderId : Block BUILDER_ID_LEN
  buildType : UInt8
  toolchainHash : Digest
  materials : Vector Digest MAX_MATERIALS
  nMaterials : Nat
  ledger : Vector LedgerEntry MAX_LEDGER
  nLedger : Nat
deriving DecidableEq

def canonLen (st : AttestStatement) : Nat :=
  ATTEST_PREFIX_LEN + st.materials.length * ATTEST_DIGEST_LEN + st.ledger.length * (8 + 1)

/-! ## The encoder -/

def putMaterials : List Digest → List UInt8 → Nat → Option (List UInt8 × Nat)
  | [], out, off => some (out, off)
  | m :: ms, out, off => do
      let out ← copyLoop m.val ATTEST_DIGEST_LEN out off
      putMaterials ms out (off + ATTEST_DIGEST_LEN)

def putLedger : List LedgerEntry → List UInt8 → Nat → Option (List UInt8 × Nat)
  | [], out, off => some (out, off)
  | e :: es, out, off => do
      let out ← copyLoop (le 8 e.depTok.toNat) 8 out off
      let out ← setAt out (off + 8) e.status
      putLedger es out (off + 9)

def canon (st : AttestStatement) (out : List UInt8) : Option (Nat × List UInt8) :=
  let nm := st.materials.length
  let nl := st.ledger.length
  if nm > MAX_MATERIALS ∨ nl > MAX_LEDGER then some (0, out)
  else if out.length < canonLen st then some (0, out)
  else do
    let out ← copyLoop (le 2 ATTEST_MAGIC) 2 out 0
    let out ← setAt out 2 ATTEST_VERSION
    let out ← setAt out 3 st.buildType
    let off := 4
    let out ← copyLoop st.subjectDigest.val ATTEST_DIGEST_LEN out off
    let off := off + ATTEST_DIGEST_LEN
    let out ← copyLoop st.toolchainHash.val ATTEST_DIGEST_LEN out off
    let off := off + ATTEST_DIGEST_LEN
    let out ← copyLoop st.builderId.val BUILDER_ID_LEN out off
    let off := off + BUILDER_ID_LEN
    let out ← setAt out off (.ofNat nm)
    let out ← setAt out (off + 1) (.ofNat nl)
    let (out, off) ← putMaterials st.materials out (off + 2)
    let (out, _) ← putLedger st.ledger out off
    return (canonLen st, out)

/-! ## The decoder -/

/-- `table[i] = x`. -/
def storeAt {α : Type} {n : Nat} (table : Vector α n) (i : Nat) (x : α) : Option (Vector α n) :=
  if i < n then some (table.setIfInBounds i x) else none

/-- Materials from the `m`-th on, as many; the offset behind them. -/
def readMaterials (buf : List UInt8) :
    Nat → Nat → Nat → Vector Digest MAX_MATERIALS → Option (Vector Digest MAX_MATERIALS × Nat)
  | _, 0, off, materials => some (materials, off)
  | m, left + 1, off, materials => do
      let digest ← blockAt buf off ATTEST_DIGEST_LEN
      let materials ← storeAt materials m digest
      readMaterials buf (m + 1) left (off + ATTEST_DIGEST_LEN) materials

def readLedger (buf : List UInt8) :
    Nat → Nat → Nat → Vector LedgerEntry MAX_LEDGER → Option (Vector LedgerEntry MAX_LEDGER × Nat)
  | _, 0, off, ledger => some (ledger, off)
  | l, left + 1, off, ledger => do
      let depTok ← cut buf off 8
      let status ← byteAt buf (off + 8)
      let ledger ← storeAt ledger l { depTok := .ofNat 64 (unle depTok), status := status }
      readLedger buf (l + 1) left (off + 9) ledger

def decode (buf : List UInt8) : Option (Option DecodedStatement) :=
  if buf.length < ATTEST_PREFIX_LEN then some none
  else do
    let magic ← cut buf 0 2
    let version ← byteAt buf 2
    if unle magic ≠ ATTEST_MAGIC ∨ version ≠ ATTEST_VERSION then return none
    let buildType ← byteAt buf 3
    let off := 4
    let subjectDigest ← blockAt buf off ATTEST_DIGEST_LEN
    let off := off + ATTEST_DIGEST_LEN
    let toolchainHash ← blockAt buf off ATTEST_DIGEST_LEN
    let off := off + ATTEST_DIGEST_LEN
    let builderId ← blockAt buf off BUILDER_ID_LEN
    let off := off + BUILDER_ID_LEN
    let nm ← byteAt buf off
    let nl ← byteAt buf (off + 1)
    let off := off + 2
    if nm.toNat > MAX_MATERIALS ∨ nl.toNat > MAX_LEDGER then return none
    if buf.length ≠ ATTEST_PREFIX_LEN + nm.toNat * ATTEST_DIGEST_LEN + nl.toNat * 9 then return none
    let (materials, off) ← readMaterials buf 0 nm.toNat off (.replicate MAX_MATERIALS (zeros ATTEST_DIGEST_LEN))
    let (ledger, _) ← readLedger buf 0 nl.toNat off (.replicate MAX_LEDGER { depTok := 0, status := 0 })
    return some
      { subjectDigest := subjectDigest, builderId := builderId, buildType := buildType,
        toolchainHash := toolchainHash, materials := materials, nMaterials := nm.toNat, ledger := ledger,
        nLedger := nl.toNat }

/-! ## The layout -/

/-- The documented limits of a statement's lists. -/
def Fits (st : AttestStatement) : Prop :=
  st.materials.length ≤ MAX_MATERIALS ∧ st.ledger.length ≤ MAX_LEDGER

instance (st : AttestStatement) : Decidable (Fits st) := inferInstanceAs (Decidable (_ ∧ _))

def header (st : AttestStatement) : List (List UInt8) :=
  [le 2 ATTEST_MAGIC, [ATTEST_VERSION], [st.buildType], st.subjectDigest.val, st.toolchainHash.val,
    st.builderId.val, [.ofNat st.materials.length], [.ofNat st.ledger.length]]

def entryBytes (e : LedgerEntry) : List UInt8 := le 8 e.depTok.toNat ++ [e.status]

def encode (st : AttestStatement) : List UInt8 :=
  (header st).flatten ++ ((st.materials.map Subtype.val).flatten ++ (st.ledger.map entryBytes).flatten)

/-- The statement that a decoded record holds. -/
def DecodedStatement.statement (d : DecodedStatement) : AttestStatement :=
  { subjectDigest := d.subjectDigest, builderId := d.builderId, buildType := d.buildType,
    toolchainHash := d.toolchainHash, materials := d.materials.toList.take d.nMaterials,
    ledger := d.ledger.toList.take d.nLedger }

theorem length_header (st : AttestStatement) : (header st).flatten.length = ATTEST_PREFIX_LEN := by
  simp [header, ATTEST_PREFIX_LEN, st.subjectDigest.property, st.toolchainHash.property, st.builderId.property,
    ATTEST_DIGEST_LEN, BUILDER_ID_LEN]

theorem length_materials (ms : List Digest) :
    (ms.map Subtype.val).flatten.length = ATTEST_DIGEST_LEN * ms.length := by
  rw [length_flatten_of_eq (k := ATTEST_DIGEST_LEN), List.length_map]
  intro g hg
  obtain ⟨m, -, rfl⟩ := List.mem_map.mp hg
  exact m.property

theorem length_entryBytes (e : LedgerEntry) : (entryBytes e).length = 9 := by
  rw [entryBytes, List.length_append, length_le]
  rfl

theorem length_ledger (es : List LedgerEntry) : (es.map entryBytes).flatten.length = 9 * es.length := by
  rw [length_flatten_of_eq (k := 9), List.length_map]
  intro g hg
  obtain ⟨e, -, rfl⟩ := List.mem_map.mp hg
  exact length_entryBytes e

theorem length_encode (st : AttestStatement) : (encode st).length = canonLen st := by
  rw [encode, List.length_append, List.length_append, length_header, length_materials, length_ledger, canonLen,
    Nat.mul_comm ATTEST_DIGEST_LEN, Nat.mul_comm 9, Nat.add_assoc]

/-! ## What the stores write -/

theorem putMaterials_eq (ms : List Digest) {out a : List UInt8} {off : Nat} (hoff : a.length = off)
    (hout : off + ATTEST_DIGEST_LEN * ms.length ≤ out.length) :
    putMaterials ms (splice out 0 a) off =
      some (splice out 0 (a ++ (ms.map Subtype.val).flatten), off + ATTEST_DIGEST_LEN * ms.length) := by
  induction ms generalizing a off with
  | nil => simp [putMaterials]
  | cons m ms ih =>
      have hm := m.property
      rw [List.length_cons, Nat.mul_succ] at hout ⊢
      rw [putMaterials, copyLoop_front off hoff hm (by omega), some_bind,
        ih (by rw [List.length_append, hoff, hm]) (by omega), List.map_cons, List.flatten_cons, List.append_assoc,
        Nat.add_right_comm, Nat.add_assoc off]

theorem putLedger_eq (es : List LedgerEntry) {out a : List UInt8} {off : Nat} (hoff : a.length = off)
    (hout : off + 9 * es.length ≤ out.length) :
    putLedger es (splice out 0 a) off =
      some (splice out 0 (a ++ (es.map entryBytes).flatten), off + 9 * es.length) := by
  induction es generalizing a off with
  | nil => simp [putLedger]
  | cons e es ih =>
      have htok := length_le 8 e.depTok.toNat
      rw [List.length_cons, Nat.mul_succ] at hout ⊢
      rw [putLedger, copyLoop_front off hoff htok (by omega), some_bind,
        setAt_front (off + 8) (by rw [List.length_append, hoff, htok]) (by omega), some_bind,
        ih (by rw [List.length_append, List.length_append, hoff, htok]; rfl) (by omega), List.map_cons,
        List.flatten_cons, entryBytes]
      simp only [List.append_assoc, Option.some.injEq, Prod.mk.injEq, true_and]
      omega

theorem canon_eq (st : AttestStatement) (out : List UInt8) :
    canon st out =
      some (if Fits st ∧ canonLen st ≤ out.length then (canonLen st, splice out 0 (encode st)) else (0, out)) := by
  rw [canon]
  dsimp only
  split
  case isTrue hcap => rw [if_neg fun h => by rw [Fits] at h; omega]
  case isFalse hcap =>
    split
    case isTrue hshort => rw [if_neg fun h => Nat.not_lt.mpr h.2 hshort]
    case isFalse hroom =>
      have hfits : Fits st ∧ canonLen st ≤ out.length := by
        rw [Fits]
        omega
      have hdigest : ATTEST_DIGEST_LEN = 32 := rfl
      have hid : BUILDER_ID_LEN = 16 := rfl
      have hlen : canonLen st = 86 + ATTEST_DIGEST_LEN * st.materials.length + 9 * st.ledger.length := by
        rw [canonLen, ATTEST_PREFIX_LEN, Nat.mul_comm _ ATTEST_DIGEST_LEN]
        omega
      have hsubject := st.subjectDigest.property
      have htoolchain := st.toolchainHash.property
      have hbuilder := st.builderId.property
      have hheader : le 2 ATTEST_MAGIC ++ [ATTEST_VERSION] ++ [st.buildType] ++ st.subjectDigest.val ++
          st.toolchainHash.val ++ st.builderId.val ++ [UInt8.ofNat st.materials.length] ++
          [UInt8.ofNat st.ledger.length] = (header st).flatten := by
        simp [header]
      have hfront : (header st).flatten.length = 4 + ATTEST_DIGEST_LEN + ATTEST_DIGEST_LEN + BUILDER_ID_LEN + 2 :=
        length_header st
      have hmaterials := length_materials st.materials
      rw [if_pos hfits, copyLoop_eq (length_le 2 _) (by omega), some_bind,
        setAt_front 2 rfl (by omega), some_bind, setAt_front 3 rfl (by omega), some_bind,
        copyLoop_front 4 rfl hsubject (by omega), some_bind,
        copyLoop_front (4 + ATTEST_DIGEST_LEN) (by simp [hsubject, hdigest]) htoolchain (by omega), some_bind,
        copyLoop_front (4 + ATTEST_DIGEST_LEN + ATTEST_DIGEST_LEN) (by simp [hsubject, htoolchain, hdigest]) hbuilder
          (by omega), some_bind,
        setAt_front (4 + ATTEST_DIGEST_LEN + ATTEST_DIGEST_LEN + BUILDER_ID_LEN)
          (by simp [hsubject, htoolchain, hbuilder, hdigest, hid]) (by omega), some_bind,
        setAt_front (4 + ATTEST_DIGEST_LEN + ATTEST_DIGEST_LEN + BUILDER_ID_LEN + 1)
          (by simp [hsubject, htoolchain, hbuilder, hdigest, hid]) (by omega), some_bind,
        hheader, putMaterials_eq _ hfront (by omega), some_bind]
      dsimp only
      rw [putLedger_eq _ (by rw [List.length_append, hfront, hmaterials]) (by omega), some_bind, List.append_assoc,
        ← encode]
      rfl

/-! ## What the reads find -/

def materialsAt (buf : List UInt8) : Nat → Nat → List Digest
  | _, 0 => []
  | off, n + 1 => fixed buf off ATTEST_DIGEST_LEN :: materialsAt buf (off + ATTEST_DIGEST_LEN) n

def entryAt (buf : List UInt8) (off : Nat) : LedgerEntry :=
  { depTok := .ofNat 64 (unle (slice buf off 8)), status := buf.getD (off + 8) 0 }

def ledgerAt (buf : List UInt8) : Nat → Nat → List LedgerEntry
  | _, 0 => []
  | off, n + 1 => entryAt buf off :: ledgerAt buf (off + 9) n

/-- The statement at the front of a buffer. -/
def statementAt (buf : List UInt8) : AttestStatement :=
  { subjectDigest := fixed buf 4 ATTEST_DIGEST_LEN, toolchainHash := fixed buf 36 ATTEST_DIGEST_LEN,
    builderId := fixed buf 68 BUILDER_ID_LEN, buildType := buf.getD 3 0,
    materials := materialsAt buf 86 (buf.getD 84 0).toNat,
    ledger := ledgerAt buf (86 + ATTEST_DIGEST_LEN * (buf.getD 84 0).toNat) (buf.getD 85 0).toNat }

/-- A list, stored into a table from an index on. -/
def fill {α : Type} {n : Nat} (table : Vector α n) : Nat → List α → Vector α n
  | _, [] => table
  | i, x :: xs => fill (table.setIfInBounds i x) (i + 1) xs

/-- A statement as a record that owns its lists. -/
def owned (st : AttestStatement) : DecodedStatement :=
  { subjectDigest := st.subjectDigest, builderId := st.builderId, buildType := st.buildType,
    toolchainHash := st.toolchainHash
    materials := fill (.replicate MAX_MATERIALS (zeros ATTEST_DIGEST_LEN)) 0 st.materials
    nMaterials := st.materials.length
    ledger := fill (.replicate MAX_LEDGER { depTok := 0, status := 0 }) 0 st.ledger
    nLedger := st.ledger.length }

/-- What `decode` checks of a buffer. -/
def Accepted (buf : List UInt8) : Prop :=
  ATTEST_PREFIX_LEN ≤ buf.length ∧ unle (slice buf 0 2) = ATTEST_MAGIC ∧ buf.getD 2 0 = ATTEST_VERSION ∧
    (buf.getD 84 0).toNat ≤ MAX_MATERIALS ∧ (buf.getD 85 0).toNat ≤ MAX_LEDGER ∧
    buf.length = ATTEST_PREFIX_LEN + (buf.getD 84 0).toNat * ATTEST_DIGEST_LEN + (buf.getD 85 0).toNat * 9

instance (buf : List UInt8) : Decidable (Accepted buf) := inferInstanceAs (Decidable (_ ∧ _))

theorem toList_fill {α : Type} {n : Nat} (table : Vector α n) (i : Nat) (xs : List α) (h : i + xs.length ≤ n) :
    (fill table i xs).toList = table.toList.take i ++ xs ++ table.toList.drop (i + xs.length) := by
  induction xs generalizing table i with
  | nil => simp [fill]
  | cons x xs ih =>
      rw [List.length_cons] at h ⊢
      have hi : i < table.toList.length := by
        rw [Vector.length_toList]
        omega
      have hfront : (table.toList.take i ++ [x]).length = i + 1 := by
        rw [List.length_append, List.length_take, Nat.min_eq_left (Nat.le_of_lt hi), List.length_singleton]
      have hset : table.toList.set i x = table.toList.take i ++ [x] ++ table.toList.drop (i + 1) := by
        rw [List.set_eq_take_append_cons_drop, if_pos hi, List.append_assoc]
        rfl
      rw [fill, ih _ _ (by omega), Vector.toList_setIfInBounds, hset, List.take_left' hfront, ← List.drop_drop,
        List.drop_left' hfront, List.drop_drop, List.append_assoc _ [x], Nat.add_assoc i, Nat.add_comm 1]
      rfl

@[simp] theorem length_materialsAt (buf : List UInt8) (off n : Nat) : (materialsAt buf off n).length = n := by
  induction n generalizing off with
  | zero => rfl
  | succ n ih => rw [materialsAt, List.length_cons, ih]

@[simp] theorem length_ledgerAt (buf : List UInt8) (off n : Nat) : (ledgerAt buf off n).length = n := by
  induction n generalizing off with
  | zero => rfl
  | succ n ih => rw [ledgerAt, List.length_cons, ih]

theorem statement_owned {st : AttestStatement} (h : Fits st) : (owned st).statement = st := by
  have hm : (owned st).materials.toList.take st.materials.length = st.materials := by
    rw [owned, toList_fill _ _ _ (by rw [Nat.zero_add]; exact h.1), List.take_zero, List.nil_append, List.take_left]
  have hl : (owned st).ledger.toList.take st.ledger.length = st.ledger := by
    rw [owned, toList_fill _ _ _ (by rw [Nat.zero_add]; exact h.2), List.take_zero, List.nil_append, List.take_left]
  rw [DecodedStatement.statement]
  exact congrArg₂ (fun ms es => { st with materials := ms, ledger := es }) hm hl

theorem readMaterials_eq {buf : List UInt8} {m left off : Nat} (table : Vector Digest MAX_MATERIALS)
    (hm : m + left ≤ MAX_MATERIALS) (h : off + ATTEST_DIGEST_LEN * left ≤ buf.length) :
    readMaterials buf m left off table =
      some (fill table m (materialsAt buf off left), off + ATTEST_DIGEST_LEN * left) := by
  induction left generalizing m off table with
  | zero => rfl
  | succ left ih =>
      rw [Nat.mul_succ] at h ⊢
      rw [readMaterials, blockAt_eq (by omega), some_bind, storeAt, if_pos (by omega), some_bind,
        ih _ (by omega) (by omega), materialsAt, fill, Nat.add_right_comm, Nat.add_assoc off]

theorem readLedger_eq {buf : List UInt8} {l left off : Nat} (table : Vector LedgerEntry MAX_LEDGER)
    (hl : l + left ≤ MAX_LEDGER) (h : off + 9 * left ≤ buf.length) :
    readLedger buf l left off table = some (fill table l (ledgerAt buf off left), off + 9 * left) := by
  induction left generalizing l off table with
  | zero => rfl
  | succ left ih =>
      rw [Nat.mul_succ] at h ⊢
      rw [readLedger, cut_eq (by omega), some_bind, byteAt_eq (by omega), some_bind, storeAt, if_pos (by omega),
        some_bind, ih _ (by omega) (by omega), ledgerAt, fill, entryAt, Nat.add_right_comm, Nat.add_assoc off]

theorem decode_eq (buf : List UInt8) :
    decode buf = some (if Accepted buf then some (owned (statementAt buf)) else none) := by
  have hpre : ATTEST_PREFIX_LEN = 86 := rfl
  have hdigest : ATTEST_DIGEST_LEN = 32 := rfl
  have hid : BUILDER_ID_LEN = 16 := rfl
  rw [decode]
  by_cases hshort : buf.length < ATTEST_PREFIX_LEN
  · rw [if_pos hshort, if_neg fun h => Nat.not_lt.mpr h.1 hshort]
  rw [if_neg hshort, cut_eq (by omega), some_bind, byteAt_eq (by omega), some_bind]
  by_cases hmagic : unle (slice buf 0 2) ≠ ATTEST_MAGIC ∨ buf.getD 2 0 ≠ ATTEST_VERSION
  · rw [if_pos hmagic, if_neg fun h => hmagic.elim (· h.2.1) (· h.2.2.1)]
    rfl
  rw [if_neg hmagic, byteAt_eq (by omega), some_bind]
  dsimp only
  rw [blockAt_eq (by omega), some_bind, blockAt_eq (by omega), some_bind, blockAt_eq (by omega), some_bind,
    byteAt_eq (by omega), some_bind, byteAt_eq (by omega), some_bind]
  -- the offsets behind the fixed fields, as numbers
  rw [show 4 + ATTEST_DIGEST_LEN + ATTEST_DIGEST_LEN + BUILDER_ID_LEN = 84 from rfl]
  by_cases hcap : (buf.getD 84 0).toNat > MAX_MATERIALS ∨ (buf.getD (84 + 1) 0).toNat > MAX_LEDGER
  · rw [if_pos hcap, if_neg fun h => hcap.elim (Nat.not_lt.mpr h.2.2.2.1) (Nat.not_lt.mpr h.2.2.2.2.1)]
    rfl
  rw [if_neg hcap]
  by_cases hlen : buf.length ≠ ATTEST_PREFIX_LEN + (buf.getD 84 0).toNat * ATTEST_DIGEST_LEN +
      (buf.getD (84 + 1) 0).toNat * 9
  · rw [if_pos hlen, if_neg fun h => hlen h.2.2.2.2.2]
    rfl
  rw [not_or, Nat.not_lt, Nat.not_lt] at hcap
  rw [not_or, not_not, not_not] at hmagic
  rw [not_not] at hlen
  have hmaterials : 84 + 2 + ATTEST_DIGEST_LEN * (buf.getD 84 0).toNat + 9 * (buf.getD (84 + 1) 0).toNat ≤
      buf.length := by
    rw [hlen, Nat.mul_comm ATTEST_DIGEST_LEN, Nat.mul_comm 9, hpre]
  rw [if_neg (not_not.mpr hlen), readMaterials_eq _ (by omega) (by omega), some_bind]
  dsimp only
  rw [readLedger_eq _ (by omega) (by omega), some_bind,
    if_pos ⟨Nat.not_lt.mp hshort, hmagic.1, hmagic.2, hcap.1, hcap.2, hlen⟩, owned]
  simp [statementAt, hdigest]

/-! ## There and back -/

theorem flatten_materialsAt {buf : List UInt8} {off n : Nat} (h : off + ATTEST_DIGEST_LEN * n ≤ buf.length) :
    ((materialsAt buf off n).map Subtype.val).flatten = slice buf off (ATTEST_DIGEST_LEN * n) := by
  induction n generalizing off with
  | zero => simp [materialsAt, slice]
  | succ n ih =>
      rw [Nat.mul_succ] at h ⊢
      rw [materialsAt, List.map_cons, List.flatten_cons, ih (by omega), fixed_val (by omega), slice_append_slice,
        Nat.add_comm ATTEST_DIGEST_LEN]

theorem entryBytes_entryAt {buf : List UInt8} {off : Nat} (h : off + 9 ≤ buf.length) :
    entryBytes (entryAt buf off) = slice buf off 9 := by
  rw [entryBytes, entryAt, le_word_slice rfl (by omega), ← slice_one (by omega), slice_append_slice]

theorem flatten_ledgerAt {buf : List UInt8} {off n : Nat} (h : off + 9 * n ≤ buf.length) :
    ((ledgerAt buf off n).map entryBytes).flatten = slice buf off (9 * n) := by
  induction n generalizing off with
  | zero => simp [ledgerAt, slice]
  | succ n ih =>
      rw [Nat.mul_succ] at h ⊢
      rw [ledgerAt, List.map_cons, List.flatten_cons, ih (by omega), entryBytes_entryAt (by omega),
        slice_append_slice, Nat.add_comm 9]

theorem fits_statementAt {buf : List UInt8} (h : Accepted buf) : Fits (statementAt buf) := by
  rw [Fits, statementAt, length_materialsAt, length_ledgerAt]
  exact ⟨h.2.2.2.1, h.2.2.2.2.1⟩

/-- An accepted buffer is the encoding of the statement that is read from it. -/
theorem encode_statementAt {buf : List UInt8} (h : Accepted buf) : encode (statementAt buf) = buf := by
  obtain ⟨hpre, hmagic, hversion, -, -, hlen⟩ := h
  have hpre86 : ATTEST_PREFIX_LEN = 86 := rfl
  have hdigest : ATTEST_DIGEST_LEN = 32 := rfl
  have hheader : header (statementAt buf) = cuts buf 0 [2, 1, 1, 32, 32, 16, 1, 1] := by
    have hone : ∀ off < 86, [buf.getD off 0] = slice buf off 1 := fun off hoff => (slice_one (by omega) 0).symm
    have hblock : ∀ off n, off + n ≤ 86 → (fixed buf off n).val = slice buf off n :=
      fun off n hoff => fixed_val (by omega)
    rw [header, statementAt, length_materialsAt, length_ledgerAt, UInt8.ofNat_toNat, UInt8.ofNat_toNat, ← hversion,
      le_unle_slice (by omega) hmagic, hblock 4 _ (by decide), hblock 36 _ (by decide), hblock 68 _ (by decide),
      hone 2 (by decide), hone 3 (by decide), hone 84 (by decide), hone 85 (by decide)]
    rfl
  have hall : 86 + ATTEST_DIGEST_LEN * (buf.getD 84 0).toNat + 9 * (buf.getD 85 0).toNat = buf.length := by
    rw [hlen, Nat.mul_comm ATTEST_DIGEST_LEN, Nat.mul_comm 9, hpre86]
  rw [encode, hheader, flatten_cuts, statementAt]
  dsimp only
  rw [flatten_materialsAt (by omega), flatten_ledgerAt (by omega), slice_append_slice]
  have hsum : [2, 1, 1, 32, 32, 16, 1, 1].sum = 86 := rfl
  have hjoin := slice_append_slice buf 0 86
    (ATTEST_DIGEST_LEN * (buf.getD 84 0).toNat + 9 * (buf.getD 85 0).toNat)
  rw [Nat.zero_add] at hjoin
  rw [hsum, hjoin, ← Nat.add_assoc, hall, slice, List.drop_zero, List.take_length]

section encode

variable (st : AttestStatement)

theorem slice_encode {i off n : Nat} {f : List UInt8} (hf : (header st)[i]? = some f)
    (hoff : ((header st).take i).flatten.length = off) (hn : f.length = n) : slice (encode st) off n = f :=
  slice_field _ hf hoff hn

theorem fixed_encode {i off n : Nat} (f : Block n) (hf : (header st)[i]? = some f.val)
    (hoff : ((header st).take i).flatten.length = off) (hle : off + n ≤ ATTEST_PREFIX_LEN) :
    fixed (encode st) off n = f := by
  have hlen : off + n ≤ (encode st).length := by
    rw [length_encode, canonLen]
    omega
  exact Subtype.ext ((fixed_val hlen).trans (slice_encode st hf hoff f.property))

theorem getD_encode {i off : Nat} {b : UInt8} (hf : (header st)[i]? = some [b])
    (hoff : ((header st).take i).flatten.length = off) : (encode st).getD off 0 = b :=
  getD_of_slice (slice_encode st hf hoff rfl)

theorem nMaterials_encode : (encode st).getD 84 0 = .ofNat st.materials.length := by
  refine getD_encode st (i := 6) rfl ?_
  simp [header, st.subjectDigest.property, st.toolchainHash.property, st.builderId.property, ATTEST_DIGEST_LEN,
    BUILDER_ID_LEN]

theorem nLedger_encode : (encode st).getD 85 0 = .ofNat st.ledger.length := by
  refine getD_encode st (i := 7) rfl ?_
  simp [header, st.subjectDigest.property, st.toolchainHash.property, st.builderId.property, ATTEST_DIGEST_LEN,
    BUILDER_ID_LEN]

end encode

theorem materialsAt_flatten (ms : List Digest) {a s : List UInt8} {off : Nat} (hoff : a.length = off) :
    materialsAt (a ++ ((ms.map Subtype.val).flatten ++ s)) off ms.length = ms := by
  induction ms generalizing a off with
  | nil => rfl
  | cons m ms ih =>
      have hm := m.property
      have hfixed : fixed (a ++ ((m.val ++ (ms.map Subtype.val).flatten) ++ s)) off ATTEST_DIGEST_LEN = m := by
        refine Subtype.ext ((fixed_val ?_).trans ?_)
        · simp only [List.length_append]
          omega
        · rw [slice_skip _ _ (Nat.le_of_eq hoff), hoff, Nat.sub_self, List.append_assoc, slice_here _ _ hm]
      rw [List.map_cons, List.flatten_cons, List.length_cons, materialsAt, hfixed, List.append_assoc m.val,
        ← List.append_assoc a, ih (by rw [List.length_append, hoff, hm])]

theorem ledgerAt_flatten (es : List LedgerEntry) {a : List UInt8} {off : Nat} (hoff : a.length = off) :
    ledgerAt (a ++ (es.map entryBytes).flatten) off es.length = es := by
  induction es generalizing a off with
  | nil => rfl
  | cons e es ih =>
      have hentry : entryAt (a ++ (entryBytes e ++ (es.map entryBytes).flatten)) off = e := by
        have htok : slice (a ++ (entryBytes e ++ (es.map entryBytes).flatten)) off 8 = le 8 e.depTok.toNat := by
          rw [slice_skip _ _ (Nat.le_of_eq hoff), hoff, Nat.sub_self, entryBytes, List.append_assoc,
            slice_here _ _ (length_le 8 _)]
        have hstatus : (a ++ (entryBytes e ++ (es.map entryBytes).flatten)).getD (off + 8) 0 = e.status := by
          refine getD_of_slice ?_
          have hfront : (a ++ le 8 e.depTok.toNat).length = off + 8 := by rw [List.length_append, hoff, length_le]
          rw [entryBytes, List.append_assoc (le 8 _), ← List.append_assoc a, slice_skip _ _ (Nat.le_of_eq hfront),
            hfront, Nat.sub_self, slice_here _ _ (List.length_singleton)]
        rw [entryAt, htok, hstatus, ofNat_unle_le rfl]
      rw [List.map_cons, List.flatten_cons, List.length_cons, ledgerAt, hentry, ← List.append_assoc a,
        ih (by rw [List.length_append, hoff, length_entryBytes])]

theorem counts_lt {st : AttestStatement} (h : Fits st) : st.materials.length < 256 ∧ st.ledger.length < 256 :=
  ⟨Nat.lt_of_le_of_lt h.1 (by decide), Nat.lt_of_le_of_lt h.2 (by decide)⟩

/-- The reads of an encoding find its statement. -/
theorem statementAt_encode {st : AttestStatement} (h : Fits st) : statementAt (encode st) = st := by
  obtain ⟨hm, hl⟩ := counts_lt h
  have hheader : (header st).flatten.length = 86 := length_header st
  have hsubject : fixed (encode st) 4 ATTEST_DIGEST_LEN = st.subjectDigest :=
    fixed_encode st (i := 3) _ rfl rfl (by decide)
  have htoolchain : fixed (encode st) 36 ATTEST_DIGEST_LEN = st.toolchainHash := by
    refine fixed_encode st (i := 4) _ rfl ?_ (by decide)
    simp [header, st.subjectDigest.property, ATTEST_DIGEST_LEN]
  have hbuilder : fixed (encode st) 68 BUILDER_ID_LEN = st.builderId := by
    refine fixed_encode st (i := 5) _ rfl ?_ (by decide)
    simp [header, st.subjectDigest.property, st.toolchainHash.property, ATTEST_DIGEST_LEN]
  have htype : (encode st).getD 3 0 = st.buildType := getD_encode st (i := 2) rfl rfl
  have hmaterials : materialsAt (encode st) 86 st.materials.length = st.materials :=
    materialsAt_flatten _ hheader
  have hledger : ledgerAt (encode st) (86 + ATTEST_DIGEST_LEN * st.materials.length) st.ledger.length =
      st.ledger := by
    rw [encode, ← List.append_assoc]
    exact ledgerAt_flatten _ (by rw [List.length_append, hheader, length_materials])
  rw [statementAt, nMaterials_encode, nLedger_encode, UInt8.toNat_ofNat_of_lt' hm, UInt8.toNat_ofNat_of_lt' hl,
    hsubject, htoolchain, hbuilder, htype, hmaterials, hledger]

theorem accepted_encode {st : AttestStatement} (h : Fits st) : Accepted (encode st) := by
  obtain ⟨hm, hl⟩ := counts_lt h
  have hmagic : slice (encode st) 0 2 = le 2 ATTEST_MAGIC := slice_encode st (i := 0) rfl rfl (length_le 2 _)
  have hversion : (encode st).getD 2 0 = ATTEST_VERSION := getD_encode st (i := 1) rfl rfl
  rw [Accepted, nMaterials_encode, nLedger_encode, UInt8.toNat_ofNat_of_lt' hm, UInt8.toNat_ofNat_of_lt' hl,
    hmagic, hversion, length_encode, canonLen]
  exact ⟨by omega, rfl, rfl, h.1, h.2, rfl⟩

theorem decode_encode {st : AttestStatement} (h : Fits st) : decode (encode st) = some (some (owned st)) := by
  rw [decode_eq, if_pos (accepted_encode h), statementAt_encode h]

theorem encode_of_decode {buf : List UInt8} {d : DecodedStatement} (h : decode buf = some (some d)) :
    Fits d.statement ∧ encode d.statement = buf := by
  rw [decode_eq] at h
  split at h
  case isTrue hacc =>
    obtain rfl : owned (statementAt buf) = d := Option.some.inj (Option.some.inj h)
    rw [statement_owned (fits_statementAt hacc)]
    exact ⟨fits_statementAt hacc, encode_statementAt hacc⟩
  case isFalse => cases h

end Yuva.Attest
