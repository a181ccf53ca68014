import CallWeight.Proofs.FiledRecords

/-! # The ranking as an order

The ranking compares procedures by a key of two counters and a signature. Keys are ordered linearly, and
no two propagated records have the same key, because records are filed under their signatures. So the
entries of the store, in whatever order they were filed, can be ranked in one way only.
-/

namespace CallWeight

/-! ## The order of texts -/

theorem Char.toNat_ne_surrogate (c : Char) (offset : Fin 0x800) : c.toNat ≠ 0xd800 + offset := by
  have valid : c.toNat < 0xd800 ∨ 0xdfff < c.toNat := by
    rcases c.valid with low | high
    · exact .inl low
    · exact .inr high.1
  omega

theorem CodePoint.value_injective : Function.Injective CodePoint.value := by
  intro a b same
  cases a with
  | char c =>
      cases b with
      | char d => rw [Char.toNat_inj.mp same]
      | surrogate offset => exact absurd same (Char.toNat_ne_surrogate c offset)
  | surrogate offset =>
      cases b with
      | char d => exact absurd same.symm (Char.toNat_ne_surrogate d offset)
      | surrogate other =>
          have same : 0xd800 + (offset : ℕ) = 0xd800 + other := same
          rw [Fin.ext (by omega : (offset : ℕ) = other)]

namespace Text

/-- The numbers of the code points of a text. -/
def numbers (text : Text) : List ℕ := text.map CodePoint.value

theorem numbers_injective : Function.Injective numbers :=
  List.map_injective_iff.mpr CodePoint.value_injective

theorem lt_iff_numbers_lt (a b : Text) : a < b ↔ a.numbers < b.numbers := by
  induction a generalizing b with
  | nil => cases b <;> simp [numbers]
  | cons p rest ih =>
      cases b with
      | nil => simp [numbers]
      | cons q others =>
          have less : p < q ↔ p.value < q.value := Iff.rfl
          rw [List.cons_lt_cons_iff, ih]
          simp [numbers, List.cons_lt_cons_iff, less, CodePoint.value_injective.eq_iff]

theorem le_iff_numbers_le (a b : Text) : a ≤ b ↔ a.numbers ≤ b.numbers := by
  rw [← not_lt (a := b.numbers), ← lt_iff_numbers_lt]
  rfl

end Text

namespace Analysis

/-! ## The key of the ranking -/

/-- What the ranking compares, smaller first: hotter procedures have smaller keys. -/
def rankKey (entry : Text × CostRecord) : ℤ ×ₗ ℤ ×ₗ List ℕ :=
  toLex (-entry.2.approx, toLex (-entry.2.static, entry.1.numbers))

theorem hotter_iff (x y : Text × CostRecord) : hotter x y = true ↔ rankKey x ≤ rankKey y := by
  simp only [hotter, rankKey, Prod.Lex.toLex_le_toLex, ← Text.le_iff_numbers_le]
  by_cases sameApprox : x.2.approx = y.2.approx
  · by_cases sameStatic : x.2.static = y.2.static
    · simp [sameApprox, sameStatic]
    · simp [sameApprox, sameStatic]
  · simp [sameApprox]

theorem signature_eq_of_rankKey {x y : Text × CostRecord} (same : rankKey x = rankKey y) :
    x.1 = y.1 := by
  have inner := (Prod.mk.inj (toLex.injective same)).2
  exact Text.numbers_injective (Prod.mk.inj (toLex.injective inner)).2

/-- Who has the smaller key has no smaller counters. -/
theorem counters_le_of_rankKey {x y : Text × CostRecord} (earlier : rankKey x < rankKey y) :
    toLex (y.2.approx, y.2.static) ≤ toLex (x.2.approx, x.2.static) := by
  simp only [rankKey, Prod.Lex.toLex_lt_toLex, neg_lt_neg_iff, neg_inj] at earlier
  rw [Prod.Lex.toLex_le_toLex]
  rcases earlier with fewer | ⟨sameApprox, fewer | ⟨sameStatic, -⟩⟩
  · exact .inl fewer
  · exact .inr ⟨sameApprox.symm, fewer.le⟩
  · exact .inr ⟨sameApprox.symm, sameStatic.ge⟩

theorem ranking_perm (a : Analysis) : (a.ranking none).Perm a.store.propagated.entries :=
  List.mergeSort_perm _ _

theorem pairwise_ranking {a : Analysis} (once : a.store.FiledOnce) :
    (a.ranking none).Pairwise (rankKey · < rankKey ·) := by
  have sorted : (a.ranking none).Pairwise fun x y => hotter x y = true :=
    List.pairwise_mergeSort
      (fun x y z first second => (hotter_iff x z).mpr
        (((hotter_iff x y).mp first).trans ((hotter_iff y z).mp second)))
      (fun x y => by
        rw [Bool.or_eq_true, hotter_iff, hotter_iff]
        exact le_total _ _) _
  have distinct : (a.ranking none).Nodup := a.ranking_perm.nodup_iff.mpr once.nodup_entries
  refine (sorted.and distinct).imp_of_mem fun {x y} isX isY ⟨order, different⟩ => ?_
  refine lt_of_le_of_ne ((hotter_iff x y).mp order) fun same => different ?_
  exact once.eq_of_signature (a.ranking_perm.mem_iff.mp isX) (a.ranking_perm.mem_iff.mp isY)
    (signature_eq_of_rankKey same)

/-- The order in which records were filed does not matter. -/
theorem ranking_eq_of_same_entries {a b : Analysis} (once : a.store.FiledOnce)
    (onceOther : b.store.FiledOnce)
    (same : ∀ entry, entry ∈ b.store.propagated.entries ↔ entry ∈ a.store.propagated.entries)
    (top : Option ℤ) : b.ranking top = a.ranking top := by
  have entries : b.store.propagated.entries.Perm a.store.propagated.entries :=
    (List.perm_ext_iff_of_nodup onceOther.nodup_entries once.nodup_entries).mpr same
  have perm : (b.ranking none).Perm (a.ranking none) :=
    (b.ranking_perm.trans entries).trans a.ranking_perm.symm
  have whole : b.ranking none = a.ranking none :=
    perm.eq_of_pairwise (fun _ _ _ _ less more => absurd less more.asymm)
      (pairwise_ranking onceOther) (pairwise_ranking once)
  cases top with
  | none => exact whole
  | some stop => exact congrArg (takeUntil stop) whole

theorem ranking_eq_take (a : Analysis) (n : ℕ) : a.ranking (some n) = (a.ranking none).take n := by
  have stop : ¬ (n : ℤ) < 0 := by omega
  simp only [ranking, takeUntil, if_neg stop, Int.toNat_natCast]

/-- What a prefix of the ranking lists comes before what it omits. -/
theorem rankKey_lt_of_omitted {a : Analysis} (once : a.store.FiledOnce) {n : ℕ}
    {listed omitted : Text × CostRecord} (isListed : listed ∈ a.ranking (some n))
    (isEntry : omitted ∈ a.store.propagated.entries) (isOmitted : omitted ∉ a.ranking (some n)) :
    rankKey listed < rankKey omitted := by
  rw [ranking_eq_take] at isListed isOmitted
  have sorted := pairwise_ranking once
  rw [← List.take_append_drop n (a.ranking none)] at sorted
  have inRanking := a.ranking_perm.mem_iff.mpr isEntry
  rw [← List.take_append_drop n (a.ranking none), List.mem_append] at inRanking
  exact (List.pairwise_append.mp sorted).2.2 listed isListed omitted
    (inRanking.resolve_left isOmitted)

/-- The ranking is the one order of the results: it lists the propagated entries by strictly increasing
    keys, results with the same entries have the same ranking, and a shorter ranking is a prefix of the
    whole one, which omits nothing that has larger counters than what it lists. -/
theorem ranking_is_the_order_of_results {a : Analysis} (isResult : a.IsResult) :
    (a.ranking none).Perm a.store.propagated.entries ∧
    (a.ranking none).Pairwise (rankKey · < rankKey ·) ∧
    (∀ b : Analysis, b.IsResult →
      (∀ entry, entry ∈ b.store.propagated.entries ↔ entry ∈ a.store.propagated.entries) →
      ∀ top, b.ranking top = a.ranking top) ∧
    ∀ n : ℕ, a.ranking (some n) = (a.ranking none).take n ∧
      (a.ranking (some n)).length = min n a.store.propagated.size ∧
      ∀ listed ∈ a.ranking (some n), ∀ omitted ∈ a.store.propagated.entries,
        omitted ∉ a.ranking (some n) →
          toLex (omitted.2.approx, omitted.2.static) ≤ toLex (listed.2.approx, listed.2.static) := by
  have once := isResult.filedOnce
  refine ⟨a.ranking_perm, pairwise_ranking once, fun b other same top =>
    ranking_eq_of_same_entries once other.filedOnce same top, fun n => ⟨a.ranking_eq_take n, ?_, ?_⟩⟩
  · rw [a.ranking_eq_take n, List.length_take, a.ranking_perm.length_eq]
    rfl
  · intro listed isListed omitted isEntry isOmitted
    exact counters_le_of_rankKey (rankKey_lt_of_omitted once isListed isEntry isOmitted)

/-- A session in which procedures are given the same counters, one after the other. -/
def sampleTie (names : List Text) : Analysis :=
  (Session.after { inspection := default }
    (names.map fun name => .put (.text name) (.int 2) (.int 9) false)).analysis

/-- Procedures with the same counters are ranked alike, in whatever order they were counted. -/
theorem ranking_is_the_order_of_results_of_tie :
    (sampleTie ["<b.B: g>", "<a.A: f>"]).ranking (some 1) =
        (sampleTie ["<a.A: f>", "<b.B: g>"]).ranking (some 1) ∧
      ((sampleTie ["<a.A: f>", "<b.B: g>"]).ranking (some 1)).length = 1 := by
  have isResult (names : List Text) : (sampleTie names).IsResult := .session _ _
  obtain ⟨-, -, same, prefixes⟩ :=
    ranking_is_the_order_of_results (isResult ["<a.A: f>", "<b.B: g>"])
  refine ⟨same _ (isResult ["<b.B: g>", "<a.A: f>"]) (fun entry => ?_) _, (prefixes 1).2.1⟩
  have swapped : (sampleTie ["<b.B: g>", "<a.A: f>"]).store.propagated.entries =
      (sampleTie ["<a.A: f>", "<b.B: g>"]).store.propagated.entries.reverse := rfl
  rw [swapped, List.mem_reverse]

end Analysis

end CallWeight
