/-
# `Yuva.Mem.Lexical` — the lexical score of a document

`bm25_idf`, `bm25_tf_norm`, `bm25_term_score` and `bm25_doc_score` of `tb-encode/src/recall.rs`
with the machine words they compute in; `none` is a panic.

    idf   = max(ln(2n + 2) - ln(2 df + 1), 0)            df clamped to 1 ≤ df ≤ n
    norm  = 250 + 750 (dl / avgl)
    tf    = 2200 tf · 1000 / (1000 tf + 1200 norm / 1000)
    score = Σ idf · tf / 1000, stopping at the largest word

**Proved here.**  In an envelope that contains the source's two, no word overflows, and the score
is not negative, does not depend on the order of the terms, does not fall when terms are added
or occur more often, and does not rise with the length of the document (`bm25_laws`).
-/
import Yuva.Mem.Activation

namespace Yuva.Mem

open Yuva.Checked Yuva.Fixed Yuva.Machine

def BM25_K1 : Int := 1200
def BM25_B : Int := 750

def bm25IdfChecked (df nDocs : Nat) : Option Int := do
  let n := max nDocs 1
  let d := min (max df 1) n
  let n2 ← word (2 * n)
  let top ← word (n2 + 2)
  let lnTop ← lnFixedChecked top
  let d2 ← word (2 * d)
  let bot ← word (d2 + 1)
  let lnBot ← lnFixedChecked bot
  let gap ← signed 64 (lnTop - lnBot)
  return max gap 0

def bm25TfNorm (tf docLen avgLen : Nat) : Option Int := do
  let tf := wrapI 64 tf
  let dl := wrapI 64 docLen
  let avgl := wrapI 64 (max avgLen 1 : Nat)
  let keep ← signed 64 (SCALE - BM25_B)
  let ratio ← divSigned 64 dl avgl
  let spread ← signed 64 (BM25_B * ratio)
  let norm ← signed 64 (keep + spread)
  let gain ← signed 64 (BM25_K1 + SCALE)
  let numer ← signed 64 (tf * gain)
  let count ← signed 64 (tf * SCALE)
  let weight ← signed 64 (BM25_K1 * norm)
  let slack ← divSigned 64 weight SCALE
  let denom ← signed 64 (count + slack)
  let top ← signed 64 (numer * SCALE)
  divSigned 64 top denom

def bm25TermScore (tf df nDocs docLen avgLen : Nat) : Option Int := do
  let idf ← bm25IdfChecked df nDocs
  let norm ← bm25TfNorm tf docLen avgLen
  let prod ← signed 64 (idf * norm)
  divSigned 64 prod SCALE

/-- The query is a list of pairs of a term's frequency in the document and the number of
documents it occurs in. -/
def bm25DocScore (query : List (Nat × Nat)) (nDocs docLen avgLen : Nat) : Option Int :=
  query.foldlM (fun acc p => do
    let score ← bm25TermScore p.1 p.2 nDocs docLen avgLen
    return satI 64 (acc + score)) 0

/-! ## The envelope -/

/-- Fewer than `2 ^ 40` tokens in a document and `2 ^ 50` documents; the source documents
`2 ^ 8` and `2 ^ 20`, and `2 ^ 40` as the size from which a product may overflow. -/
structure Envelope (query : List (Nat × Nat)) (nDocs docLen avgLen : Nat) : Prop where
  tf : ∀ p ∈ query, p.1 < 2 ^ 40
  nDocs : nDocs < 2 ^ 50
  docLen : docLen < 2 ^ 40
  avgLen : avgLen < 2 ^ 40

/-- What the length of a document adds below the fraction. -/
def lengthWeight (docLen avgLen : Nat) : Nat := 1200 * (250 + 750 * (docLen / max avgLen 1)) / 1000

def saturation (tf docLen avgLen : Nat) : Nat := tf * 2200 * 1000 / (tf * 1000 + lengthWeight docLen avgLen)

def termScore (p : Nat × Nat) (nDocs docLen avgLen : Nat) : Int :=
  bm25Idf p.2 nDocs * saturation p.1 docLen avgLen / 1000

theorem lengthWeight_pos (docLen avgLen : Nat) : 0 < lengthWeight docLen avgLen := by
  rw [lengthWeight]
  omega

theorem lengthWeight_mono {docLen docLen' : Nat} (h : docLen ≤ docLen') (avgLen : Nat) :
    lengthWeight docLen avgLen ≤ lengthWeight docLen' avgLen := by
  have := Nat.div_le_div_right (c := max avgLen 1) h
  simp only [lengthWeight]
  omega

theorem saturation_lt (tf docLen avgLen : Nat) : saturation tf docLen avgLen < 2200 + 1 := by
  rw [saturation, Nat.lt_succ_iff]
  apply Nat.div_le_of_le_mul
  calc tf * 2200 * 1000 = tf * 1000 * 2200 := by ring
    _ ≤ (tf * 1000 + lengthWeight docLen avgLen) * 2200 := Nat.mul_le_mul_right _ (Nat.le_add_right _ _)

theorem bm25Idf_eq {nDocs : Nat} (hn : nDocs < 2 ^ 50) (df : Nat) :
    bm25Idf df nDocs = max (lnFixed (2 * max nDocs 1 + 2) - lnFixed (2 * min (max df 1) (max nDocs 1) + 1)) 0 ∧
      bm25IdfChecked df nDocs = some (bm25Idf df nDocs) := by
  have htop : 2 * max nDocs 1 + 2 < 2 ^ 54 := by omega
  have hbot : 2 * min (max df 1) (max nDocs 1) + 1 < 2 ^ 54 := by omega
  have htop0 := lnFixed_nonneg htop
  have htop1 := lnFixed_lt htop
  have hbot0 := lnFixed_nonneg hbot
  have hbot1 := lnFixed_lt hbot
  rw [bm25Idf, bm25IdfChecked]
  rw [word_eq (by omega), some_bind, word_eq (by omega), some_bind, (lnFixed_eq htop).2, some_bind,
    word_eq (by omega), some_bind, word_eq (by omega), some_bind, (lnFixed_eq hbot).2, some_bind,
    signed_eq (by omega) (by omega), some_bind, wrapU_of_lt (by omega), wrapU_of_lt (by omega)]
  exact ⟨rfl, rfl⟩

/-- A rarer term weighs more. -/
theorem bm25Idf_anti {nDocs df df' : Nat} (hn : nDocs < 2 ^ 50) (h : df ≤ df') :
    bm25Idf df' nDocs ≤ bm25Idf df nDocs := by
  have hln := lnFixed_mono (x := 2 * min (max df 1) (max nDocs 1) + 1) (y := 2 * min (max df' 1) (max nDocs 1) + 1)
    (by omega) (by omega)
  rw [(bm25Idf_eq hn df).1, (bm25Idf_eq hn df').1]
  omega

theorem bm25Idf_lt {nDocs : Nat} (hn : nDocs < 2 ^ 50) (df : Nat) : bm25Idf df nDocs < 2 ^ 16 := by
  have htop1 := lnFixed_lt (x := 2 * max nDocs 1 + 2) (by omega)
  have hbot0 := lnFixed_nonneg (x := 2 * min (max df 1) (max nDocs 1) + 1) (by omega)
  rw [(bm25Idf_eq hn df).1]
  omega

theorem bm25TfNorm_eq {tf docLen avgLen : Nat} (htf : tf < 2 ^ 40) (hdl : docLen < 2 ^ 40) (havg : avgLen < 2 ^ 40) :
    bm25TfNorm tf docLen avgLen = some (saturation tf docLen avgLen : Int) := by
  have hratio : docLen / max avgLen 1 ≤ docLen := Nat.div_le_self _ _
  have hratio' : (docLen : Int) / (max avgLen 1 : Nat) = (docLen / max avgLen 1 : Nat) := rfl
  have hweight := lengthWeight_pos docLen avgLen
  rw [bm25TfNorm, saturation]
  rw [lengthWeight] at hweight ⊢
  rw [wrapI64_eq (by omega) (by omega), wrapI64_eq (by omega) (by omega), wrapI64_eq (by omega) (by omega),
    SCALE, BM25_B, BM25_K1, signed_eq (by decide) (by decide), some_bind,
    divSigned_eq (by omega) (by omega) (by omega), some_bind, hratio']
  generalize docLen / max avgLen 1 = ratio at hratio hweight ⊢
  have hslack : (1200 * (1000 - 750 + 750 * (ratio : Int))) / 1000 = (1200 * (250 + 750 * ratio) / 1000 : Nat) := by
    omega
  rw [signed_eq (by omega) (by omega), some_bind, signed_eq (by omega) (by omega), some_bind,
    signed_eq (by decide) (by decide), some_bind, signed_eq (by omega) (by omega), some_bind,
    signed_eq (by omega) (by omega), some_bind, signed_eq (by omega) (by omega), some_bind,
    divSigned_eq (by omega) (by omega) (by decide), some_bind, hslack]
  have hfits : 1200 * (250 + 750 * ratio) / 1000 < 2 ^ 50 := by omega
  have hquot : (tf * 2200 * 1000 : Nat) / ((tf * 1000 + 1200 * (250 + 750 * ratio) / 1000 : Nat) : Int) =
      (tf * 2200 * 1000 / (tf * 1000 + 1200 * (250 + 750 * ratio) / 1000) : Nat) := rfl
  generalize 1200 * (250 + 750 * ratio) / 1000 = slack at hweight hfits hquot ⊢
  have hdenom : (tf : Int) * 1000 + (slack : Nat) = (tf * 1000 + slack : Nat) := by omega
  have htop : (tf : Int) * (1200 + 1000) * 1000 = (tf * 2200 * 1000 : Nat) := by omega
  rw [hdenom, htop, signed_eq (by omega) (by omega), some_bind, signed_eq (by omega) (by omega), some_bind,
    divSigned_eq (by omega) (by omega) (by omega), hquot]

/-! ## The terms and their sum -/

theorem bm25TermScore_eq {p : Nat × Nat} {nDocs docLen avgLen : Nat} (htf : p.1 < 2 ^ 40) (hn : nDocs < 2 ^ 50)
    (hdl : docLen < 2 ^ 40) (havg : avgLen < 2 ^ 40) :
    bm25TermScore p.1 p.2 nDocs docLen avgLen = some (termScore p nDocs docLen avgLen) ∧
      0 ≤ termScore p nDocs docLen avgLen := by
  have hidf0 : 0 ≤ bm25Idf p.2 nDocs := by
    rw [(bm25Idf_eq hn p.2).1]
    exact le_max_right _ _
  have hidf1 := bm25Idf_lt hn p.2
  have hsat := saturation_lt p.1 docLen avgLen
  have hprod0 : 0 ≤ bm25Idf p.2 nDocs * saturation p.1 docLen avgLen := mul_nonneg hidf0 (Int.natCast_nonneg _)
  have hprod1 : bm25Idf p.2 nDocs * saturation p.1 docLen avgLen ≤ 2 ^ 16 * 2200 :=
    mul_le_mul (le_of_lt hidf1) (by omega) (Int.natCast_nonneg _) (by decide)
  rw [bm25TermScore, (bm25Idf_eq hn p.2).2, some_bind, bm25TfNorm_eq htf hdl havg, some_bind,
    signed_eq (by omega) (by omega), some_bind, SCALE, divSigned_eq hprod0 (by omega) (by decide)]
  exact ⟨rfl, Int.ediv_nonneg hprod0 (by decide)⟩

/-- A term that occurs more often in a document that is no longer scores no less. -/
theorem termScore_mono {p p' : Nat × Nat} {nDocs docLen docLen' : Nat} (avgLen : Nat) (hn : nDocs < 2 ^ 50)
    (htf : p.1 ≤ p'.1) (hdf : p.2 = p'.2) (hlen : docLen' ≤ docLen) :
    termScore p nDocs docLen avgLen ≤ termScore p' nDocs docLen' avgLen := by
  have hsat : saturation p.1 docLen avgLen ≤ saturation p'.1 docLen' avgLen := by
    calc saturation p.1 docLen avgLen ≤ saturation p.1 docLen' avgLen :=
          ratio_anti (lengthWeight_pos _ _) (lengthWeight_mono hlen avgLen)
      _ ≤ saturation p'.1 docLen' avgLen := ratio_mono (lengthWeight_pos _ _) htf
  have hidf : 0 ≤ bm25Idf p'.2 nDocs := by
    rw [(bm25Idf_eq hn p'.2).1]
    exact le_max_right _ _
  rw [termScore, termScore, hdf]
  exact Int.ediv_le_ediv (by decide) (mul_le_mul_of_nonneg_left (Int.ofNat_le.mpr hsat) hidf)

/-- The score is the sum of the terms, up to the largest word. -/
theorem bm25DocScore_eq {query : List (Nat × Nat)} {nDocs docLen avgLen : Nat}
    (h : Envelope query nDocs docLen avgLen) :
    bm25DocScore query nDocs docLen avgLen =
      some (min ((query.map fun p => termScore p nDocs docLen avgLen).sum) (2 ^ 63 - 1)) := by
  have hnonneg : ∀ v ∈ query.map fun p => termScore p nDocs docLen avgLen, 0 ≤ v := by
    intro v hv
    obtain ⟨p, hp, rfl⟩ := List.mem_map.mp hv
    exact (bm25TermScore_eq (h.tf p hp) h.nDocs h.docLen h.avgLen).2
  have hbody : ∀ p ∈ query, ∀ acc : Int, (do
      let score ← bm25TermScore p.1 p.2 nDocs docLen avgLen
      return satI 64 (acc + score)) = some (satI 64 (acc + termScore p nDocs docLen avgLen)) := by
    intro p hp acc
    rw [(bm25TermScore_eq (h.tf p hp) h.nDocs h.docLen h.avgLen).1]
    rfl
  have hsum := foldl_satI (w := 64) hnonneg (a := 0) (le_refl 0) (by decide)
  rw [List.foldl_map, Int.zero_add] at hsum
  rw [bm25DocScore, foldlM_eq_foldl hbody, hsum]

/-- Dropping terms, and lowering the frequency of those that stay. -/
def Fewer (query query' : List (Nat × Nat)) : Prop :=
  List.SublistForall₂ (fun p p' => p.1 ≤ p'.1 ∧ p.2 = p'.2) query query'

theorem bm25DocScore_mono {query query' : List (Nat × Nat)} {nDocs docLen docLen' avgLen : Nat}
    (h : Envelope query nDocs docLen avgLen) (h' : Envelope query' nDocs docLen' avgLen)
    (hquery : Fewer query query') (hlen : docLen' ≤ docLen) :
    ∃ v v', bm25DocScore query nDocs docLen avgLen = some v ∧ bm25DocScore query' nDocs docLen' avgLen = some v' ∧
      v ≤ v' := by
  obtain ⟨kept, hterms, hsub⟩ := List.sublistForall₂_iff.mp hquery
  have hsum : (query.map fun p => termScore p nDocs docLen avgLen).sum ≤
      (query'.map fun p => termScore p nDocs docLen' avgLen).sum := by
    refine List.SublistForall₂.sum_le_sum (List.sublistForall₂_iff.mpr ⟨_, ?_, hsub.map _⟩) ?_
    · rw [List.forall₂_map_left_iff, List.forall₂_map_right_iff]
      exact hterms.imp fun p p' hp => termScore_mono avgLen h.nDocs hp.1 hp.2 hlen
    · intro v hv
      obtain ⟨p, hp, rfl⟩ := List.mem_map.mp hv
      exact (bm25TermScore_eq (h'.tf p hp) h'.nDocs h'.docLen h'.avgLen).2
  exact ⟨_, _, bm25DocScore_eq h, bm25DocScore_eq h', min_le_min_right _ hsum⟩

/-- The laws of the score. -/
theorem bm25_laws {query : List (Nat × Nat)} {nDocs docLen avgLen : Nat} (h : Envelope query nDocs docLen avgLen) :
    (∃ v, bm25DocScore query nDocs docLen avgLen = some v ∧ 0 ≤ v) ∧
    (∀ query', query.Perm query' →
      bm25DocScore query' nDocs docLen avgLen = bm25DocScore query nDocs docLen avgLen) ∧
    (∀ query', Envelope query' nDocs docLen avgLen → Fewer query query' →
      ∃ v v', bm25DocScore query nDocs docLen avgLen = some v ∧
        bm25DocScore query' nDocs docLen avgLen = some v' ∧ v ≤ v') ∧
    (∀ docLen', docLen ≤ docLen' → docLen' < 2 ^ 40 →
      ∃ v v', bm25DocScore query nDocs docLen avgLen = some v ∧
        bm25DocScore query nDocs docLen' avgLen = some v' ∧ v' ≤ v) ∧
    (∀ df df', df ≤ df' → bm25IdfChecked df nDocs = some (bm25Idf df nDocs) ∧
      bm25Idf df' nDocs ≤ bm25Idf df nDocs) := by
  refine ⟨⟨_, bm25DocScore_eq h, ?_⟩, ?_, ?_, ?_, ?_⟩
  · refine le_min (List.sum_nonneg ?_) (by decide)
    intro v hv
    obtain ⟨p, hp, rfl⟩ := List.mem_map.mp hv
    exact (bm25TermScore_eq (h.tf p hp) h.nDocs h.docLen h.avgLen).2
  · intro query' hperm
    have h' : Envelope query' nDocs docLen avgLen :=
      ⟨fun p hp => h.tf p (hperm.mem_iff.mpr hp), h.nDocs, h.docLen, h.avgLen⟩
    rw [bm25DocScore_eq h, bm25DocScore_eq h', (hperm.map _).sum_eq]
  · intro query' h' hfewer
    exact bm25DocScore_mono h h' hfewer (le_refl _)
  · intro docLen' hle hfits
    have h' : Envelope query nDocs docLen' avgLen := ⟨h.tf, h.nDocs, hfits, h.avgLen⟩
    have hself : Fewer query query :=
      List.sublistForall₂_iff.mpr ⟨query, List.forall₂_same.mpr fun p _ => ⟨le_refl _, rfl⟩, .refl _⟩
    obtain ⟨v', v, hv', hv, hlow⟩ := bm25DocScore_mono h' h hself hle
    exact ⟨v, v', hv, hv', hlow⟩
  · intro df df' hdf
    exact ⟨(bm25Idf_eq h.nDocs df).2, bm25Idf_anti h.nDocs hdf⟩

theorem bm25_laws_two_terms : (∃ v, bm25DocScore [(2, 3), (1, 10)] 100 4 5 = some v ∧ 0 ≤ v) ∧
    bm25DocScore [(1, 10), (2, 3)] 100 4 5 = bm25DocScore [(2, 3), (1, 10)] 100 4 5 ∧
    ∃ v v', bm25DocScore [(2, 3), (1, 10)] 100 4 5 = some v ∧ bm25DocScore [(5, 3), (7, 7), (1, 10)] 100 4 5 = some v' ∧
      v ≤ v' := by
  have h : Envelope [(2, 3), (1, 10)] 100 4 5 := ⟨by decide, by decide, by decide, by decide⟩
  obtain ⟨hnonneg, hperm, hfewer, -, -⟩ := bm25_laws h
  refine ⟨hnonneg, hperm _ (.swap _ _ _), hfewer _ ⟨by decide, by decide, by decide, by decide⟩ ?_⟩
  exact .cons ⟨by decide, rfl⟩ (.cons_right (.cons ⟨by decide, rfl⟩ .nil))

end Yuva.Mem
