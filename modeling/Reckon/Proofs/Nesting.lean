import Mathlib.Data.Nat.Find
import Reckon.Proofs.Meaning
import Reckon.Proofs.Viable

set_option autoImplicit false

namespace Reckon

open Evaluation

theorem Location.offset_le_after (p : Location) (s : Text) : p.offset ≤ (p.after s).offset := by
  induction s generalizing p with
  | nil => exact Nat.le_refl _
  | cons c s ih =>
    have hs : p.offset ≤ (p.step c).offset := by
      unfold step
      split <;> simp
    exact Nat.le_trans hs (ih (p.step c))

theorem Cursor.offset_le_next (c : Cursor) :
    c.here.offset ≤ c.next.1.location.offset ∧ c.next.1.location.offset ≤ c.next.2.here.offset := by
  unfold next
  dsimp only
  split
  · exact ⟨Location.offset_le_after _ _, Nat.le_refl _⟩
  · exact ⟨Location.offset_le_after _ _, Location.offset_le_after _ _⟩

theorem Cursor.offset_tokenAt_mono (c : Cursor) {j k : Nat} (h : j ≤ k) :
    (c.tokenAt j).location.offset ≤ (c.tokenAt k).location.offset := by
  induction h with
  | refl => exact Nat.le_refl _
  | @step k h ih =>
    have h₁ := (c.skip k).offset_le_next.2
    have h₂ := (c.skip (k + 1)).offset_le_next.1
    rw [c.skip_succ k] at h₂
    simp only [tokenAt, c.skip_succ k] at ih ⊢
    omega

def Token.nests (t : Token) : Bool :=
  t.actsAs (.mark .opening false) || t.actsAs (.mark .caret false)

theorem Derives.nesting_le {l : Level} {ts : List Token} {e : Tree} (h : Derives l ts e) :
    e.nesting ≤ ts.countP Token.nests := by
  induction h with
  | number ht => exact Nat.zero_le _
  | group ho he hc ih =>
    simp only [Tree.nesting, List.cons_append, List.countP_cons, List.countP_append,
      Token.nests, ho, Bool.true_or, if_true]
    omega
  | @binary l op t ts us a b hl ha ht hb iha ihb =>
    simp only [Tree.nesting, List.countP_cons, List.countP_append]
    split
    · next hop =>
      subst hop
      have hcaret : t.actsAs (.mark .caret false) := ht
      simp only [Token.nests, hcaret, Bool.or_true, if_true]
      omega
    · omega

namespace Evaluation

variable {d d' : Nat} {floor : Level} {s s' : State} {σ : Stack} {ts : List Token} {t : Token}

theorem readOperand_limit (h : d ≤ d') :
    readOperand d' σ t = readOperand d σ t ∨
      readOperand d σ t = .reject ⟨.nestingTooDeep d, t.location⟩ := by
  unfold readOperand
  split
  · by_cases hd : depth σ < d
    · simp [hd, Nat.lt_of_lt_of_le hd h]
    · simp [hd]
  · exact .inl rfl
  · exact .inl rfl
  · exact .inl rfl

theorem step_limit (h : d ≤ d') :
    step d' floor s t = step d floor s t ∨
      step d floor s t = .reject ⟨.nestingTooDeep d, t.location⟩ := by
  cases s with
  | operand σ => exact readOperand_limit h
  | exponent x location σ =>
    by_cases hd : depth σ < d
    · simp only [step, if_pos hd, if_pos (Nat.lt_of_lt_of_le hd h)]
      exact readOperand_limit h
    · simp [step, hd]
  | value v σ => exact .inl rfl

theorem drive_limit (h : d ≤ d') (hs : drive d floor s ts = .shift s') :
    drive d' floor s ts = .shift s' := by
  have hstep : ∀ us s₁ t s₂, drive d' floor s us = .shift s₁ → step d floor s₁ t = .shift s₂ →
      drive d' floor s (us ++ [t]) = .shift s₂ := by
    intro us s₁ t s₂ hd hm
    rw [drive_concat hd]
    rcases @step_limit d d' floor s₁ t h with he | he
    · rw [he, hm]
    · rw [hm] at he
      cases he
  exact drive_preserves rfl hstep hs

theorem Spells.depth_le (h : Spells floor σ ts) : depth σ ≤ ts.countP Token.nests := by
  induction h with
  | nil => exact Nat.zero_le _
  | group hσ ht ih =>
    rw [depth_group, List.countP_append]
    simp only [List.countP_singleton, Token.nests, ht, Bool.true_or, if_true]
    omega
  | @pending σ ts us t op e x hσ hl he hx ht ih =>
    rw [depth_pending, List.countP_append, List.countP_append]
    split
    · next hp =>
      subst hp
      have hc : t.actsAs (.mark .caret false) := ht
      simp only [List.countP_singleton, Token.nests, hc, Bool.or_true, if_true]
      omega
    · omega

/-- A step nests too deep at a `(`, or at whatever comes after a `^`. -/
theorem State.SpelledBy.tooDeep {m : Nat} {location : Location} (hs : s.SpelledBy floor ts)
    (h : Evaluation.step d floor s t = .reject ⟨.nestingTooDeep m, location⟩) :
    m = d ∧ location = t.location ∧
      ((t.actsAs (.mark .opening false) ∧ d ≤ ts.countP Token.nests) ∨
        (∃ us u, ts = us ++ [u] ∧ u.actsAs (.mark .caret false) ∧ d < ts.countP Token.nests)) := by
  have hopening : ∀ τ, Spells floor τ ts →
      readOperand d τ t = .reject ⟨.nestingTooDeep m, location⟩ →
      m = d ∧ location = t.location ∧ t.actsAs (.mark .opening false) ∧
        d ≤ ts.countP Token.nests := by
    intro τ hτ hr
    rcases readOperand_reject hr with ⟨hf, ht, hd⟩ | ⟨hf, -⟩ | ⟨g, hf, -⟩ | ⟨hf, -⟩
    · simp only [Failure.mk.injEq, Cause.nestingTooDeep.injEq] at hf
      obtain ⟨rfl, rfl⟩ := hf
      exact ⟨rfl, rfl, ht, Nat.le_trans hd hτ.depth_le⟩
    · simp at hf
    · simp at hf
    · simp at hf
  cases s with
  | operand σ =>
    obtain ⟨hm, hl, ht⟩ := hopening σ hs h
    exact ⟨hm, hl, .inl ht⟩
  | exponent x place σ =>
    have hle := Spells.depth_le hs
    rw [depth_pending, if_pos rfl] at hle
    simp only [Evaluation.step] at h
    split at h
    · obtain ⟨hm, hl, ht⟩ := hopening _ hs h
      exact ⟨hm, hl, .inl ht⟩
    · next hd =>
      simp only [Move.reject.injEq, Failure.mk.injEq, Cause.nestingTooDeep.injEq] at h
      obtain ⟨rfl, rfl⟩ := h
      cases hs with
      | pending hσ hl he hx ht =>
        exact ⟨rfl, rfl, .inr ⟨_, _, rfl, ht, by omega⟩⟩
  | value v σ =>
    rcases readOperator_reject h with ⟨g, hg⟩ | ⟨hf, -⟩
    · simp at hg
    · simp at hf

end Evaluation

theorem tooDeep_of_verdict {limit : Nat} {t : Token} {m : Move} {location : Location}
    (h : m.verdict? t = some (.error ⟨.nestingTooDeep limit, location⟩)) :
    m = .reject ⟨.nestingTooDeep limit, location⟩ := by
  cases m with
  | shift s => cases h
  | reject f => simpa [Move.verdict?] using h
  | accept v =>
    simp only [Move.verdict?, conclude, Option.some.injEq] at h
    split at h
    · cases h
    · split at h <;> simp at h

theorem Course.tooDeep {d k m : Nat} {line : Text} {s : State} {location : Location}
    (hc : Course d line k s) (h : evaluate d line = .error ⟨.nestingTooDeep m, location⟩) :
    m = d ∧ location = (tokenAt line k).location ∧
      ((tokenAt line k).actsAs (.mark .opening false) ∨
        ∃ j, k = j + 1 ∧ (tokenAt line j).actsAs (.mark .caret false)) ∧
      d < (tokens line).countP Token.nests := by
  have hv := hc.ended
  rw [h] at hv
  obtain ⟨hm, hl, ht⟩ := (spelledBy_of_drive hc.driven).tooDeep (tooDeep_of_verdict hv)
  refine ⟨hm, hl, ?_⟩
  rcases ht with ⟨ht, hn⟩ | ⟨us, u, hu, ht, hn⟩
  · have hk : k < (tokens line).length := lt_length_of_actsAs (by decide) ht
    have hle := (List.take_sublist (k + 1) (tokens line)).countP_le (p := Token.nests)
    have ht' : (tokenAt line k).nests = true := by simp [Token.nests, ht]
    rw [take_succ_tokens hk, List.countP_append, List.countP_singleton, if_pos ht'] at hle
    exact ⟨.inl ht, by omega⟩
  · have hle := (List.take_sublist k (tokens line)).countP_le (p := Token.nests)
    refine ⟨.inr ?_, by omega⟩
    have hk : k = us.length + 1 := by
      have hlen := congrArg List.length hu
      rw [List.length_take, Nat.min_eq_left hc.le] at hlen
      simpa using hlen
    refine ⟨us.length, hk, ?_⟩
    have hlast : us ++ [u] = (tokens line).take us.length ++ [tokenAt line us.length] := by
      rw [← hu, hk]
      exact take_succ_tokens (by have := hc.le; omega)
    obtain rfl : u = tokenAt line us.length := by simpa using (List.append_inj' hlast rfl).2
    exact ht

def TooDeep (limit : Nat) (line : Text) : Prop :=
  ∃ location, evaluate limit line = .error ⟨.nestingTooDeep limit, location⟩

theorem not_tooDeep_of_count_le {d : Nat} {line : Text} (h : (tokens line).countP Token.nests ≤ d) :
    ¬ TooDeep d line := by
  rintro ⟨location, he⟩
  obtain ⟨k, s, hc⟩ := exists_course d line
  have hlt := (hc.tooDeep he).2.2.2
  omega

theorem tooDeep_of_evaluate {d m : Nat} {line : Text} {location : Location}
    (h : evaluate d line = .error ⟨.nestingTooDeep m, location⟩) : TooDeep d line := by
  obtain ⟨k, s, hc⟩ := exists_course d line
  obtain rfl := (hc.tooDeep h).1
  exact ⟨location, h⟩

theorem evaluate_limit {d d' : Nat} (line : Text) (h : d ≤ d') :
    evaluate d' line = evaluate d line ∨ TooDeep d line := by
  obtain ⟨k, s, hc⟩ := exists_course d line
  obtain ⟨k', s', hc'⟩ := exists_course d' line
  rcases @step_limit d d' .sum s (tokenAt line k) h with he | he
  · exact .inl (hc'.evaluate_eq hc.le (drive_limit h hc.driven) (he ▸ hc.ended))
  · have hv := hc.ended
    rw [he] at hv
    exact .inr ⟨_, (Option.some.inj hv).symm⟩

theorem Course.offset_le {d d' k k' : Nat} {line : Text} {s s' : State} (hc : Course d line k s)
    (h : d ≤ d') (hc' : Course d' line k' s') :
    (tokenAt line k).location.offset ≤ (tokenAt line k').location.offset :=
  Cursor.offset_tokenAt_mono _ (hc'.le_of_drive hc.le (drive_limit h hc.driven))

theorem Tree.tooDeep_of_read {limit depth : Nat} {e : Tree} {v : Int} (hv : e.value = .ok v)
    (hd : depth ≤ limit) (h : limit < depth + e.nesting) :
    ∃ location, e.read limit depth = .error ⟨.nestingTooDeep limit, location⟩ := by
  induction e generalizing depth v with
  | number ds location =>
    simp only [nesting] at h
    omega
  | group location e ih =>
    simp only [nesting] at h
    rw [read]
    split
    · exact ih hv (by omega) (by omega)
    · exact ⟨location, rfl⟩
  | binary op location a b iha ihb =>
    simp only [nesting] at h
    rw [value] at hv
    obtain ⟨x, ha, hv⟩ := bind_eq_ok hv
    obtain ⟨y, hb, -⟩ := bind_eq_ok hv
    by_cases hna : limit < depth + a.nesting
    · obtain ⟨place, hr⟩ := iha ha hd hna
      exact ⟨place, by rw [read, hr]; rfl⟩
    · have hr : a.read limit depth = .ok x := by rw [read_eq_value (by omega), ha]
      rw [read, hr]
      simp only [bind, Except.bind]
      split
      · exact ⟨b.start, rfl⟩
      · next hp =>
        have hb' : ∃ place, b.read limit (if op = .power then depth + 1 else depth) =
            .error ⟨.nestingTooDeep limit, place⟩ := by
          apply ihb hb
          · split
            · next hop =>
              simp only [hop, true_and] at hp
              omega
            · exact hd
          · split at h <;> split <;> omega
        obtain ⟨place, hr'⟩ := hb'
        exact ⟨place, by rw [hr']⟩

/-- The threshold of a line: below it the line nests too deep, at a `(` or after a `^`, and no
earlier under a higher limit; from it on the result is one and the same. A statement without a fault
has the nesting of its tree as its threshold. -/
theorem evaluate_threshold (line : Text) :
    ∃ n, n ≤ (tokens line).countP Token.nests ∧
      (∀ d, d < n → ∃ k location, evaluate d line = .error ⟨.nestingTooDeep d, location⟩ ∧
        k ≤ (tokens line).length ∧ location = (tokenAt line k).location ∧
        ((tokenAt line k).actsAs (.mark .opening false) ∨
          ∃ j, k = j + 1 ∧ (tokenAt line j).actsAs (.mark .caret false))) ∧
      (∀ d d' p q, d ≤ d' → d' < n → evaluate d line = .error ⟨.nestingTooDeep d, p⟩ →
        evaluate d' line = .error ⟨.nestingTooDeep d', q⟩ → p.offset ≤ q.offset) ∧
      (∃ r, (∀ d location, r ≠ .error ⟨.nestingTooDeep d, location⟩) ∧
        ∀ d, n ≤ d → evaluate d line = r) ∧
      (∀ ts e v, ts <+: tokens line → Sentence ts e → e.value = .ok v → n = e.nesting) := by
  classical
  have hex : ∃ d, ¬ TooDeep d line := ⟨_, not_tooDeep_of_count_le (Nat.le_refl _)⟩
  have hbelow : ∀ d, d < Nat.find hex → TooDeep d line := fun d hd =>
    not_not.mp (Nat.find_min hex hd)
  have hat : ¬ TooDeep (Nat.find hex) line := Nat.find_spec hex
  refine ⟨Nat.find hex, Nat.find_min' hex (not_tooDeep_of_count_le (Nat.le_refl _)), ?_, ?_, ?_, ?_⟩
  · intro d hd
    obtain ⟨location, he⟩ := hbelow d hd
    obtain ⟨k, s, hc⟩ := exists_course d line
    obtain ⟨-, hl, ht, -⟩ := hc.tooDeep he
    exact ⟨k, location, he, hc.le, hl, ht⟩
  · intro d d' p q hdd hd' he he'
    obtain ⟨k, s, hc⟩ := exists_course d line
    obtain ⟨k', s', hc'⟩ := exists_course d' line
    rw [(hc.tooDeep he).2.1, (hc'.tooDeep he').2.1]
    exact hc.offset_le hdd hc'
  · refine ⟨evaluate (Nat.find hex) line, fun d location he => hat (tooDeep_of_evaluate he), ?_⟩
    intro d hd
    exact (evaluate_limit line hd).resolve_right hat
  · intro ts e v hp h hv
    apply Nat.le_antisymm
    · apply Nat.find_min' hex
      rintro ⟨location, he⟩
      rw [evaluate_eq_read hp h, Tree.read_eq_value (by omega), hv] at he
      cases he
    · by_contra hlt
      obtain ⟨location, he⟩ := Tree.tooDeep_of_read hv (Nat.zero_le (Nat.find hex)) (by omega)
      exact hat ⟨location, by rw [evaluate_eq_read hp h, he]⟩

end Reckon
