import CallWeight.Program.Procedure

/-! # Signatures read back

A signature is cut at the first colon that a blank follows. A separator cannot begin inside a class name
and end behind it, because the colon and the blank differ. So a class name and a subsignature are read
back from the signature that they make exactly if both are nonempty and the class name holds no
separator. Whatever is cut out of a text spells the text again.
-/

namespace CallWeight

theorem Json.eq_text_of_asText {operation : String} {value : Json} {text : Text}
    (isText : value.asText operation = .ok text) : value = .text text := by
  unfold asText at isText
  split at isText
  · cases isText
    rfl
  · cases isText

/-! ## The first separator -/

namespace Text

variable {separator text before after : Text}

theorem occursIn_iff_infix {part : Text} : occursIn part text = true ↔ part <:+: text := by
  induction text with
  | nil => simp [occursIn]
  | cons c rest ih =>
      simp only [occursIn, Bool.or_eq_true, List.isPrefixOf_iff_prefix, ih, List.infix_cons_iff]

/-- The parts of a text and the separator between them append back to the whole. -/
theorem append_of_splitFirst (found : splitFirst separator text = some (before, after)) :
    text = before ++ separator ++ after := by
  induction text generalizing before with
  | nil => simp [splitFirst] at found
  | cons c rest ih =>
      simp only [splitFirst] at found
      split at found
      · rename_i isHere
        cases found
        obtain ⟨tail, whole⟩ := List.isPrefixOf_iff_prefix.mp isHere
        simp [← whole]
      · obtain ⟨⟨front, back⟩, inner, parts⟩ := Option.map_eq_some_iff.mp found
        cases parts
        simp [ih inner]

/-- No separator stands before the one where a text is cut. -/
theorem prefix_of_splitFirst (found : splitFirst separator text = some (before, after))
    {front back : Text} (whole : text = front ++ separator ++ back) : before <+: front := by
  induction text generalizing before front with
  | nil => simp [splitFirst] at found
  | cons c rest ih =>
      simp only [splitFirst] at found
      split at found
      · cases found
        exact List.nil_prefix
      · rename_i notHere
        obtain ⟨⟨early, late⟩, inner, parts⟩ := Option.map_eq_some_iff.mp found
        cases parts
        cases front with
        | nil => exact absurd (List.isPrefixOf_iff_prefix.mpr ⟨back, whole.symm⟩) notHere
        | cons d front =>
            obtain ⟨rfl, remaining⟩ := List.cons.inj whole
            exact (List.prefix_cons_inj c).mpr (ih inner remaining)

/-- A text is cut if a separator stands in it. -/
theorem exists_splitFirst (hasSeparator : separator ≠ []) (isInfix : separator <:+: text) :
    ∃ before after, splitFirst separator text = some (before, after) := by
  induction text with
  | nil => exact absurd (List.infix_nil.mp isInfix) hasSeparator
  | cons c rest ih =>
      rw [splitFirst]
      split
      · exact ⟨_, _, rfl⟩
      · rename_i notHere
        rcases List.infix_cons_iff.mp isInfix with isPrefix | isInfix
        · exact absurd (List.isPrefixOf_iff_prefix.mpr isPrefix) notHere
        · obtain ⟨before, after, cut⟩ := ih isInfix
          exact ⟨c :: before, after, by rw [cut]; rfl⟩

end Text

/-! ## Class name and subsignature -/

namespace Signature

variable {className subsignature signature inside : Text}

/-- Whether a class name and a subsignature can be told apart in the signature that they make. -/
structure Separable (className subsignature : Text) : Prop where
  hasClass : className ≠ []
  hasSubsignature : subsignature ≠ []
  noSeparator : ¬ (": " : Text) <:+: className

theorem separator_eq : (": " : Text) = [.char ':', .char ' '] := rfl

theorem make_eq (className subsignature : Text) :
    make className subsignature = "<" ++ className ++ ": " ++ subsignature ++ ">" := by
  simp [make, Text.ofString]

/-- A separator does not begin inside a text and end behind it. -/
theorem eq_nil_or_prefix_of_append_eq {front rest after : Text}
    (whole : front ++ ": " ++ rest = ": " ++ after) : front = [] ∨ (": " : Text) <+: front := by
  simp only [separator_eq, List.append_assoc, List.cons_append, List.nil_append] at whole ⊢
  cases front with
  | nil => exact .inl rfl
  | cons c front =>
      cases front with
      | nil =>
          -- The separator on the right would end with the colon of the one on the left.
          simp at whole
      | cons d front =>
          simp only [List.cons_append, List.cons.injEq] at whole
          obtain ⟨rfl, rfl, -⟩ := whole
          exact .inr ⟨front, rfl⟩

/-- What is made of two parts is cut at the separator between them or before it. -/
theorem exists_splitFirst_make (className subsignature : Text) :
    ∃ before more after, className = before ++ more ∧ more ++ ": " ++ subsignature = ": " ++ after ∧
      Text.splitFirst ": " (className ++ ": " ++ subsignature) = some (before, after) := by
  have isInfix : (": " : Text) <:+: className ++ ": " ++ subsignature :=
    ⟨className, subsignature, rfl⟩
  obtain ⟨before, after, cut⟩ := Text.exists_splitFirst (List.cons_ne_nil _ _) isInfix
  obtain ⟨more, rfl⟩ := Text.prefix_of_splitFirst cut rfl
  have whole := Text.append_of_splitFirst cut
  simp only [List.append_assoc, List.append_cancel_left_eq] at whole
  exact ⟨before, more, after, rfl, by rwa [List.append_assoc], cut⟩

/-- The first separator is the one behind the class name, unless the name holds one itself. -/
theorem splitFirst_make_iff :
    Text.splitFirst ": " (className ++ ": " ++ subsignature) = some (className, subsignature) ↔
      ¬ (": " : Text) <:+: className := by
  constructor
  · rintro cut ⟨front, back, rfl⟩
    -- The name would have to end before the separator that it holds.
    have earlier : front ++ ": " ++ back ++ ": " ++ subsignature =
        front ++ ": " ++ (back ++ ": " ++ subsignature) := by simp only [List.append_assoc]
    have shorter := (Text.prefix_of_splitFirst cut earlier).length_le
    simp only [List.length_append, separator_eq, List.length_cons] at shorter
    omega
  · intro noSeparator
    obtain ⟨before, more, after, rfl, whole, cut⟩ := exists_splitFirst_make className subsignature
    rcases eq_nil_or_prefix_of_append_eq whole with rfl | isPrefix
    · obtain rfl : subsignature = after := List.append_cancel_left whole
      simpa using cut
    · exact absurd (isPrefix.isInfix.trans (List.suffix_append before more).isInfix) noSeparator

theorem inside?_eq_some_iff :
    inside? signature = some inside ↔ signature = "<" ++ inside ++ ">" := by
  constructor
  · intro found
    unfold inside? at found
    split at found
    · split at found
      · rename_i closed
        cases found
        obtain ⟨inside, rfl⟩ := List.getLast?_eq_some_iff.mp closed
        simp [Text.ofString]
      · cases found
    · cases found
  · rintro rfl
    have opened : ("<" ++ inside ++ ">" : Text) = .char '<' :: (inside ++ [.char '>']) := rfl
    rw [opened, inside?, if_pos List.getLast?_concat, List.dropLast_concat]

theorem inside?_make (className subsignature : Text) :
    inside? (make className subsignature) = some (className ++ ": " ++ subsignature) := by
  rw [inside?_eq_some_iff, make_eq]
  simp only [List.append_assoc]

theorem splitInside_eq_some_iff :
    splitInside inside = some (className, subsignature) ↔
      Text.splitFirst ": " inside = some (className, subsignature) ∧
        className ≠ [] ∧ subsignature ≠ [] := by
  rw [separator_eq]
  cases cut : Text.splitFirst [.char ':', .char ' '] inside with
  | none => simp [splitInside, cut]
  | some parts =>
      obtain ⟨before, after⟩ := parts
      cases before <;> cases after <;> grind [splitInside]

/-- Reading gives exactly the parts that can be told apart and make the text that was read. -/
theorem split_eq_ok_iff :
    split signature = .ok (className, subsignature) ↔
      Separable className subsignature ∧ make className subsignature = signature := by
  have read : split signature = .ok (className, subsignature) ↔
      (inside? signature).bind splitInside = some (className, subsignature) := by
    cases found : (inside? signature).bind splitInside <;> simp [split, found]
  rw [read, Option.bind_eq_some_iff]
  constructor
  · rintro ⟨inside, bracketed, parts⟩
    obtain ⟨cut, hasClass, hasSubsignature⟩ := splitInside_eq_some_iff.mp parts
    obtain rfl := Text.append_of_splitFirst cut
    refine ⟨⟨hasClass, hasSubsignature, splitFirst_make_iff.mp cut⟩, ?_⟩
    rw [inside?_eq_some_iff.mp bracketed, make_eq]
    simp only [List.append_assoc]
  · rintro ⟨separable, rfl⟩
    refine ⟨_, inside?_make className subsignature, splitInside_eq_some_iff.mpr ?_⟩
    exact ⟨splitFirst_make_iff.mpr separable.noSeparator, separable.hasClass, separable.hasSubsignature⟩

theorem make_of_split (parts : split signature = .ok (className, subsignature)) :
    make className subsignature = signature := (split_eq_ok_iff.mp parts).2

/-- Reading fails in one way only, and only for texts that no such parts make. -/
theorem split_eq_error_iff {fault : Fault} :
    split signature = .error fault ↔ fault = .format (.malformedSignature signature) ∧
      ¬ ∃ className subsignature, Separable className subsignature ∧
        make className subsignature = signature := by
  have malformed {reason : Fault} (failed : split signature = .error reason) :
      reason = .format (.malformedSignature signature) := by
    unfold split at failed
    split at failed <;> cases failed
    rfl
  constructor
  · intro failed
    refine ⟨malformed failed, ?_⟩
    rintro ⟨className, subsignature, made⟩
    rw [split_eq_ok_iff.mpr made] at failed
    cases failed
  · rintro ⟨rfl, unmade⟩
    cases result : split signature with
    | error reason => rw [malformed result]
    | ok parts => exact absurd ⟨parts.1, parts.2, split_eq_ok_iff.mp result⟩ unmade

/-- Reading inverts making for the parts that can be told apart and for no others. Making inverts reading
    wherever reading succeeds. Every text is read that has the form `<class: subsignature>` with such
    parts, and every other one is refused as malformed. -/
theorem split_inverts_make (className subsignature signature : Text) :
    (split (make className subsignature) = .ok (className, subsignature) ↔
      Separable className subsignature) ∧
    (split signature = .ok (className, subsignature) → make className subsignature = signature) ∧
    ∀ fault, split signature = .error fault ↔ fault = .format (.malformedSignature signature) ∧
      ¬ ∃ c s : Text, Separable c s ∧ signature = "<" ++ c ++ ": " ++ s ++ ">" := by
  refine ⟨?_, make_of_split, fun fault => ?_⟩
  · rw [split_eq_ok_iff, and_iff_left rfl]
  · simp only [← make_eq, eq_comm (a := signature)]
    exact split_eq_error_iff

-- A colon at the end of the class name, and a separator and a bracket in the subsignature.
example : split (make "a.B:" "f: g>") = .ok ("a.B:", "f: g>") := rfl

end Signature

theorem Procedure.phantom_spec {signature : Text} {p : Procedure}
    (made : Procedure.phantom signature = .ok p) :
    p.signature = signature ∧ p.body = none ∧ ∃ name, p.declaringClass = .text name := by
  cases parts : Signature.split signature with
  | error fault => simp [phantom, parts, bind, Except.bind] at made
  | ok names =>
      simp only [phantom, parts, bind, Except.bind, pure, Except.pure, Except.ok.injEq] at made
      subst made
      exact ⟨Signature.make_of_split parts, rfl, _, rfl⟩

end CallWeight
