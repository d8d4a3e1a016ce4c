import Formula.Warning

/-!
# What the warnings say about a reading

Every warning comes from one part of the reading, and without a warning there was nothing to
report.
-/

set_option autoImplicit false

namespace Formula

/-- There is nothing to report about the reading. -/
structure Reading.Clean (reading : Reading) : Prop where
  hasMissing : reading.expr.hasMissing = false
  tooDeep : reading.tooDeep = false
  unconsumed : reading.unconsumed = []
  displaced : reading.displaced = []
  unclosed : reading.unclosed = 0

namespace Warning

variable {tokens : List Token} {reading : Reading}

theorem hasMissing_of_ofMissing {e : Expr} (h : ofMissing e = []) : e.hasMissing = false := by
  unfold ofMissing at h
  split at h
  · cases h
  · split at h
    · cases h
    · rename_i hnot
      exact eq_false_of_ne_true hnot

theorem eq_nil_of_ofUnconsumed (h : ofUnconsumed tokens = []) : tokens = [] := by
  unfold ofUnconsumed at h
  split at h
  · rename_i hempty
    exact List.isEmpty_iff.mp hempty
  · cases h

theorem clean_of_ofReading (h : ofReading tokens reading = []) : reading.Clean := by
  simp only [ofReading, List.append_eq_nil_iff, List.map_eq_nil_iff,
    List.replicate_eq_nil_iff] at h
  obtain ⟨⟨⟨⟨⟨_, hmissing⟩, hdeep⟩, hunconsumed⟩, hdisplaced⟩, hunclosed⟩ := h
  refine ⟨hasMissing_of_ofMissing hmissing, ?_, eq_nil_of_ofUnconsumed hunconsumed, hdisplaced,
    hunclosed⟩
  cases hd : reading.tooDeep with
  | false => rfl
  | true => simp [hd] at hdeep

theorem eq_of_mem_ofMissing {e : Expr} {w : Warning} (h : w ∈ ofMissing e) :
    w = nothingRead ∨ w = missingOperand := by
  unfold ofMissing at h
  split at h
  · exact .inl (List.mem_singleton.mp h)
  · split at h
    · exact .inr (List.mem_singleton.mp h)
    · cases h

theorem mem_ofReading {w : Warning} (h : w ∈ ofReading tokens reading) :
    (∃ c, .unknown c ∈ tokens ∧ w = unknownCharacter c) ∨
    (w = nothingRead ∨ w = missingOperand) ∨
    (reading.tooDeep = true ∧ w = tooDeep) ∨
    (reading.unconsumed ≠ [] ∧ w = ignored (Token.spell reading.unconsumed)) ∨
    (∃ e ∈ reading.displaced, w = displaced e.infixText) ∨
    (reading.unclosed ≠ 0 ∧ w = unclosedGroup) := by
  simp only [ofReading, List.mem_append] at h
  rcases h with ((((h | h) | h) | h) | h) | h
  · left
    obtain ⟨c, hc, rfl⟩ := List.mem_map.mp h
    obtain ⟨token, htoken, hunknown⟩ := List.mem_filterMap.mp hc
    cases token with
    | unknown d =>
      obtain rfl := Option.some.inj hunknown
      exact ⟨d, htoken, rfl⟩
    | _ => cases hunknown
  · exact .inr (.inl (eq_of_mem_ofMissing h))
  · right; right; left
    split at h
    · rename_i hdeep
      exact ⟨hdeep, List.mem_singleton.mp h⟩
    · cases h
  · right; right; right; left
    unfold ofUnconsumed at h
    split at h
    · cases h
    · rename_i hne
      exact ⟨fun heq => hne (List.isEmpty_iff.mpr heq), List.mem_singleton.mp h⟩
  · right; right; right; right; left
    obtain ⟨e, he, rfl⟩ := List.mem_map.mp h
    exact ⟨e, he, rfl⟩
  · obtain ⟨hne, rfl⟩ := List.mem_replicate.mp h
    exact .inr (.inr (.inr (.inr (.inr ⟨hne, rfl⟩))))

theorem tooDeep_mem_ofReading : tooDeep ∈ ofReading tokens reading ↔ reading.tooDeep = true := by
  constructor
  · intro h
    simpa using mem_ofReading h
  · intro h
    simp [ofReading, h]

theorem unknownCharacter_mem_ofReading {c : Char}
    (h : unknownCharacter c ∈ ofReading tokens reading) : .unknown c ∈ tokens := by
  simpa using mem_ofReading h

theorem unconsumed_of_ignored_mem {text : String} (h : ignored text ∈ ofReading tokens reading) :
    reading.unconsumed ≠ [] := by
  have hcases := mem_ofReading h
  simp at hcases
  exact hcases.1

theorem displaced_of_displaced_mem {text : String}
    (h : displaced text ∈ ofReading tokens reading) : reading.displaced ≠ [] := by
  have hcases := mem_ofReading h
  simp at hcases
  obtain ⟨e, he, _⟩ := hcases
  exact List.ne_nil_of_mem he

end Warning
end Formula
