import Mathlib

/-! # Lists

What the rest of the theory asks of lists: first occurrences, stable sorts, lists that are related item
by item, and tables that were made from a list.
-/

namespace CallWeight

/-! ## First occurrences -/

section EraseDups

variable {α β : Type} [BEq β] [LawfulBEq β]

theorem eraseDups_concat (items : List β) (last : β) :
    (items ++ [last]).eraseDups =
      if last ∈ items then items.eraseDups else items.eraseDups ++ [last] := by
  rw [List.eraseDups_append]
  split
  case isTrue listed => simp [List.removeAll, listed]
  case isFalse isNew => simp [List.removeAll, isNew, List.eraseDups_cons]

theorem eraseDups_flatMap {items : List α} {f : α → List β}
    (apart : items.Pairwise fun a b => (f a).Disjoint (f b)) :
    (items.flatMap f).eraseDups = items.flatMap fun a => (f a).eraseDups := by
  induction items with
  | nil => rfl
  | cons a rest ih =>
      obtain ⟨fromFirst, apartRest⟩ := List.pairwise_cons.mp apart
      have others : (rest.flatMap f).removeAll (f a) = rest.flatMap f := by
        refine List.filter_eq_self.mpr fun b listed => ?_
        obtain ⟨c, inRest, inC⟩ := List.mem_flatMap.mp listed
        simpa using fun inA => fromFirst c inRest inA inC
      rw [List.flatMap_cons, List.flatMap_cons, List.eraseDups_append, others, ih apartRest]

theorem eraseDups_map [BEq α] [LawfulBEq α] {f : α → β} (injective : Function.Injective f)
    (items : List α) : (items.map f).eraseDups = items.eraseDups.map f := by
  induction length : items.length using Nat.strongRecOn generalizing items with
  | ind n ih =>
      cases items with
      | nil => rfl
      | cons a rest =>
          have shorter : (rest.filter fun b => !b == a).length < n := by
            have fewer := List.length_filter_le (fun b => !b == a) rest
            simp only [List.length_cons] at length
            omega
          have others : (rest.map f).filter (fun b => !b == f a) =
              (rest.filter fun b => !b == a).map f := by
            rw [List.filter_map]
            congr 1
            refine List.filter_congr fun b _ => ?_
            rw [Function.comp_apply, Bool.eq_iff_iff]
            simp [injective.eq_iff]
          rw [List.map_cons, List.eraseDups_cons, List.eraseDups_cons, List.map_cons, others,
            ih _ shorter _ rfl]

theorem nodup_eraseDups (items : List β) : items.eraseDups.Nodup := by
  induction length : items.length using Nat.strongRecOn generalizing items with
  | ind n ih =>
      cases items with
      | nil => simp
      | cons a rest =>
          rw [List.eraseDups_cons, List.nodup_cons]
          have shorter : (rest.filter fun b => !b == a).length < n := by
            have fewer := List.length_filter_le (fun b => !b == a) rest
            simp only [List.length_cons] at length
            omega
          exact ⟨by simp, ih _ shorter _ rfl⟩

theorem filter_eraseDups (keep : β → Bool) (items : List β) :
    items.eraseDups.filter keep = (items.filter keep).eraseDups := by
  match items with
  | [] => simp
  | a :: rest =>
      have ih := filter_eraseDups keep (rest.filter fun b => !b == a)
      rw [List.eraseDups_cons]
      by_cases kept : keep a = true
      · rw [List.filter_cons_of_pos kept, List.filter_cons_of_pos kept, List.eraseDups_cons, ih]
        simp [List.filter_filter, Bool.and_comm]
      · rw [List.filter_cons_of_neg kept, List.filter_cons_of_neg kept, ih, List.filter_filter]
        congr 1
        apply List.filter_congr
        intro b _
        by_cases same : b = a
        · simp [same, kept]
        · simp [same]
termination_by items.length
decreasing_by exact Nat.lt_succ_of_le (List.length_filter_le _ _)

end EraseDups

/-! ## Tests and sorts -/

theorem flatMap_filter {α β : Type} (keep : α → Bool) (f : α → List β) (items : List α) :
    (items.filter keep).flatMap f = items.flatMap fun a => if keep a = true then f a else [] := by
  induction items with
  | nil => rfl
  | cons a rest ih => by_cases kept : keep a = true <;> simp [kept, ih]

/-- A list has only one cut with a property on one side of it and nowhere on the other. -/
theorem cut_unique {α : Type} {q : α → Bool} {before after before' after' : List α}
    (same : before ++ after = before' ++ after')
    (none : ∀ a ∈ before, q a = false) (all : ∀ a ∈ after, q a = true)
    (none' : ∀ a ∈ before', q a = false) (all' : ∀ a ∈ after', q a = true) :
    before = before' ∧ after = after' := by
  have cut {front back : List α} (none : ∀ a ∈ front, q a = false) (all : ∀ a ∈ back, q a = true) :
      (front ++ back).filter (!q ·) = front ∧ (front ++ back).filter q = back := by
    have kept : front.filter (!q ·) = front := List.filter_eq_self.mpr (by simpa using none)
    have left : back.filter (!q ·) = [] := List.filter_eq_nil_iff.mpr (by simpa using all)
    have noFront : front.filter q = [] := List.filter_eq_nil_iff.mpr (by simpa using none)
    simp [List.filter_append, kept, left, noFront, List.filter_eq_self.mpr all]
  obtain ⟨front, back⟩ := cut none all
  obtain ⟨front', back'⟩ := cut none' all'
  exact ⟨front.symm.trans (same ▸ front'), back.symm.trans (same ▸ back')⟩

/-- A stable sort of what a test keeps is what the test keeps of the sorted list. -/
theorem filter_mergeSort {α : Type} {le : α → α → Bool}
    (trans : ∀ a b c, le a b = true → le b c = true → le a c = true)
    (total : ∀ a b, (le a b || le b a) = true) (keep : α → Bool) (items : List α) :
    (items.mergeSort le).filter keep = (items.filter keep).mergeSort le := by
  induction items with
  | nil => simp
  | cons a rest ih =>
      obtain ⟨front, back, sorted, restSorted, smaller⟩ := List.mergeSort_cons trans total a rest
      have larger : ∀ b ∈ back, le a b = true := by
        have ordered := List.pairwise_mergeSort trans total (a :: rest)
        rw [sorted] at ordered
        exact (List.pairwise_cons.mp (List.pairwise_append.mp ordered).2.1).1
      rw [restSorted, List.filter_append] at ih
      rw [sorted, List.filter_append]
      by_cases kept : keep a = true
      · obtain ⟨front', back', sorted', restSorted', smaller'⟩ :=
          List.mergeSort_cons trans total a (rest.filter keep)
        have larger' : ∀ b ∈ back', le a b = true := by
          have ordered := List.pairwise_mergeSort trans total (a :: rest.filter keep)
          rw [sorted'] at ordered
          exact (List.pairwise_cons.mp (List.pairwise_append.mp ordered).2.1).1
        rw [restSorted'] at ih
        obtain ⟨sameFront, sameBack⟩ := cut_unique (q := le a) ih
          (fun b isFront => by simpa using smaller b (List.mem_filter.mp isFront).1)
          (fun b isBack => larger b (List.mem_filter.mp isBack).1)
          (fun b isFront => by simpa using smaller' b isFront) larger'
        rw [List.filter_cons_of_pos kept, List.filter_cons_of_pos kept, sorted', sameFront, sameBack]
      · rw [List.filter_cons_of_neg kept, List.filter_cons_of_neg kept, ih]

/-! ## Lists related item by item -/

/-- Two lists are related through a third one if their items are. -/
theorem forall₂_comp {α β γ : Type} {R : α → β → Prop} {S : β → γ → Prop} {as : List α}
    {cs : List γ} :
    List.Forall₂ (Relation.Comp R S) as cs ↔ ∃ bs, List.Forall₂ R as bs ∧ List.Forall₂ S bs cs := by
  constructor
  · intro related
    induction related with
    | nil => exact ⟨[], .nil, .nil⟩
    | cons first _ ih =>
        obtain ⟨b, left, right⟩ := first
        obtain ⟨bs, lefts, rights⟩ := ih
        exact ⟨b :: bs, .cons left lefts, .cons right rights⟩
  · rintro ⟨bs, lefts, rights⟩
    induction lefts generalizing cs with
    | nil =>
        cases rights
        exact .nil
    | cons left _ ih =>
        cases rights with
        | cons right rights => exact .cons ⟨_, left, right⟩ (ih rights)

/-- Lists whose items agree in pairs through a view look the same through it. -/
theorem map_eq_map_iff {α β : Type} {R : α → α → Prop} {f : α → β}
    (agree : ∀ a b, R a b ↔ f a = f b) {items others : List α} :
    List.Forall₂ R items others ↔ items.map f = others.map f := by
  have sameRelation : R = fun a b => f a = f b := funext fun a => funext fun b => propext (agree a b)
  rw [sameRelation, ← List.forall₂_eq_eq_eq, List.forall₂_map_left_iff, List.forall₂_map_right_iff]

theorem map_eq_of_forall₂ {α β γ : Type} {R : α → β → Prop} {f : α → γ} {g : β → γ}
    {as : List α} {bs : List β} (same : ∀ a b, R a b → g b = f a) (related : List.Forall₂ R as bs) :
    bs.map g = as.map f := by
  induction related with
  | nil => rfl
  | cons first _ ih => rw [List.map_cons, List.map_cons, same _ _ first, ih]

/-- Where one value tells the items of a list apart, so does every value that determines it. -/
theorem nodup_map_of_determines {α β γ : Type} {f : α → β} {g : α → γ} {items : List α}
    (distinct : (items.map f).Nodup)
    (determines : ∀ a ∈ items, ∀ b ∈ items, g a = g b → f a = f b) : (items.map g).Nodup := by
  refine List.Nodup.map_on (fun a isA b isB same => ?_) (List.Nodup.of_map f distinct)
  exact List.inj_on_of_nodup_map distinct isA isB (determines a isA b isB same)

/-! ## Tables -/

theorem lookup_map_pair {α β : Type} [DecidableEq α] (f : α → β) (items : List α) (key : α) :
    (items.map fun item => (item, f item)).lookup key = if key ∈ items then some (f key) else none := by
  induction items with
  | nil => rfl
  | cons item rest ih =>
      by_cases same : key = item
      · subst same
        simp
      · have different : (key == item) = false := by simpa using same
        simp [List.lookup_cons, different, same, ih]

end CallWeight
