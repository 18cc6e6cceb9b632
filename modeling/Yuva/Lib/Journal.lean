/-
# `Yuva.Lib.Journal` — programs that keep a journal

A program whose only effect, until it gives up, is to write a fixed list of entries.
`Writes act T e x us c a` says of `x` that it writes `us` and goes on with `a` where `c` holds,
and otherwise writes the beginning of `us`, undoes what it has set up (`T`) and stops with `e`.
`act us s` is the state `s` with the entries `us` written.

    `Writes.ret`, `Writes.forM`        nothing, and loops over a list
    `Writes.after`, `Writes.bind`      one after another: entries in order, both conditions
    `Writes.giveUp`                    the teardown itself

It is `Yuva.Lib.Teardown` with the entries counted.  Nothing here mentions a particular journal.
-/
import Yuva.Lib.Teardown
import Mathlib.Data.List.Basic

namespace Yuva.Journal

open Yuva.Teardown

variable {σ η ω α β : Type}

/-- Entries are written one after another. -/
structure Acts (act : List ω → σ → σ) : Prop where
  nil : ∀ s, act [] s = s
  append : ∀ us vs s, act (us ++ vs) s = act vs (act us s)

def Writes (act : List ω → σ → σ) (T : σ → σ) (e : η) (x : EStateM η σ α) (us : List ω) (c : Prop) (a : α) : Prop :=
  ∀ s, c ∧ x s = .ok a (act us s) ∨ ¬ c ∧ ∃ pre, pre <+: us ∧ x s = .error e (T (act pre s))

namespace Writes

variable {act : List ω → σ → σ} {T : σ → σ} {e : η}
variable {x : EStateM η σ α} {f : α → EStateM η σ β} {a : α} {b : β} {u v : List ω} {c c' : Prop}

theorem ret (hact : Acts act) (a : α) : Writes act T e (pure a : EStateM η σ α) [] True a := fun s =>
  .inl ⟨trivial, by rw [hact.nil]; rfl⟩

theorem bind (hact : Acts act) (hx : Writes act T e x u c a) (hf : Writes act T e (f a) v c' b) :
    Writes act T e (x >>= f) (u ++ v) (c ∧ c') b := by
  intro s
  rcases hx s with ⟨hc, hrun⟩ | ⟨hc, pre, hpre, hrun⟩
  · rcases hf (act u s) with ⟨hc', hrun'⟩ | ⟨hc', pre, hpre, hrun'⟩
    · exact .inl ⟨⟨hc, hc'⟩, by rw [bind_ok hrun, hrun', hact.append]⟩
    · refine .inr ⟨fun h => hc' h.2, u ++ pre, (List.prefix_append_right_inj u).mpr hpre, ?_⟩
      rw [bind_ok hrun, hrun', hact.append]
  · exact .inr ⟨fun h => hc h.1, pre, hpre.trans (List.prefix_append u v), bind_error hrun⟩

theorem iff (h : Writes act T e x u c a) (hc : c ↔ c') : Writes act T e x u c' a := propext hc ▸ h

theorem after (hact : Acts act) (hx : Writes act T e x u True a) (hf : Writes act T e (f a) v c b) :
    Writes act T e (x >>= f) (u ++ v) c b :=
  (bind hact hx hf).iff ⟨And.right, fun h => ⟨trivial, h⟩⟩

theorem giveUp (hact : Acts act) (hx : ∀ s, x s = .error e (T s)) (hc : ¬ c) : Writes act T e x [] c a := fun s =>
  .inr ⟨hc, [], List.nil_prefix, by rw [hact.nil]; exact hx s⟩

theorem forM (hact : Acts act) {g : β → EStateM η σ PUnit} {u : β → List ω}
    (h : ∀ b, Writes act T e (g b) (u b) True ⟨⟩) (bs : List β) :
    Writes act T e (bs.forM g) (bs.flatMap u) True ⟨⟩ := by
  induction bs with
  | nil => exact ret hact PUnit.unit
  | cons b bs ih => exact after hact (h b) ih

end Writes

end Yuva.Journal
