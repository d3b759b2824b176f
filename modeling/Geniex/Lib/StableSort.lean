import Mathlib.Tactic

/-!
# Sorting by a key

`sortBy key l` is a stable sort of `l` by `key`.

* `filter_sortBy`: the entries of one key keep their order.
* `eq_of_filter_eq`: two lists sorted by key are equal if they have the same entries of each key.
* `filter_prefix_sortBy`: the entries of the least key come first.
* `prefix_sortBy_iff`: when the sorted list starts with given entries of ascending keys.
* `places_sortBy_iff`: when each place of the sorted list holds an entry that is right for it.
-/

namespace StableSort

variable {α κ : Type} [LinearOrder κ] (key : α → κ)

/-- `std::stable_sort` by `key a < key b`. -/
def sortBy (l : List α) : List α := l.insertionSort fun a b => key a ≤ key b

instance total_key : Std.Total fun a b : α => key a ≤ key b :=
  ⟨fun a b => le_total (key a) (key b)⟩

instance trans_key : IsTrans α fun a b : α => key a ≤ key b :=
  ⟨fun _ _ _ h h' => h.trans h'⟩

variable {key}

theorem perm_sortBy (l : List α) : (sortBy key l).Perm l := List.perm_insertionSort _ l

variable (key) in
theorem sorted_sortBy (l : List α) : (sortBy key l).Pairwise fun a b => key a ≤ key b :=
  List.pairwise_insertionSort _ l

/-- The entries of one key keep their order. -/
theorem filter_sortBy (l : List α) (k : κ) :
    (sortBy key l).filter (key · = k) = l.filter (key · = k) := by
  have hkeys : ∀ a ∈ l.filter (key · = k), key a = k := by simp
  have hsorted : (l.filter (key · = k)).Pairwise fun a b => key a ≤ key b := by
    apply List.pairwise_of_forall_mem_list
    intro a ha b hb
    exact (hkeys a ha).trans (hkeys b hb).symm |>.le
  have hsub : (l.filter (key · = k)).Sublist ((sortBy key l).filter (key · = k)) := by
    have h := (List.sublist_insertionSort hsorted List.filter_sublist).filter (key · = k)
    rwa [List.filter_filter, show (fun a => decide (key a = k) && decide (key a = k)) =
      fun a => decide (key a = k) by simp] at h
  exact (hsub.eq_of_length ((perm_sortBy l).filter _).length_eq.symm).symm

/-- Two lists sorted by key are equal if they have the same entries of each key. -/
theorem eq_of_filter_eq : ∀ {l l' : List α}, l.Pairwise (fun a b => key a ≤ key b) →
    l'.Pairwise (fun a b => key a ≤ key b) →
    (∀ k, l.filter (key · = k) = l'.filter (key · = k)) → l = l' := by
  intro l
  induction l with
  | nil =>
    intro l' _ _ h
    cases l' with
    | nil => rfl
    | cons b l' => simpa using h (key b)
  | cons a l ih =>
    intro l' hl hl' h
    cases l' with
    | nil => simpa using h (key a)
    | cons b l' =>
      obtain ⟨ha, htail⟩ := List.pairwise_cons.mp hl
      obtain ⟨hb, htail'⟩ := List.pairwise_cons.mp hl'
      -- each head is among the other list's entries of its key
      have hab : key a ≤ key b := by
        have hmem : b ∈ (a :: l).filter (key · = key b) := by rw [h]; simp
        rcases List.mem_cons.mp (List.mem_of_mem_filter hmem) with rfl | hmem
        · exact le_rfl
        · exact ha b hmem
      have hba : key b ≤ key a := by
        have hmem : a ∈ (b :: l').filter (key · = key a) := by rw [← h]; simp
        rcases List.mem_cons.mp (List.mem_of_mem_filter hmem) with rfl | hmem
        · exact le_rfl
        · exact hb a hmem
      have heq : key a = key b := le_antisymm hab hba
      have hhead := h (key a)
      rw [List.filter_cons_of_pos (by simp), List.filter_cons_of_pos (by simp [heq])] at hhead
      obtain ⟨rfl, -⟩ := List.cons.inj hhead
      apply congrArg (a :: ·)
      apply ih htail htail'
      intro k
      have hk := h k
      by_cases hka : key a = k
      · rw [List.filter_cons_of_pos (by simp [hka]), List.filter_cons_of_pos (by simp [hka])] at hk
        exact (List.cons.inj hk).2
      · rwa [List.filter_cons_of_neg (by simp [hka]), List.filter_cons_of_neg (by simp [hka])] at hk

/-- A list of ascending keys has one entry of each. -/
theorem filter_eq_singleton {l : List α} (h : l.Pairwise fun a b => key a < key b) {a : α}
    (ha : a ∈ l) : l.filter (key · = key a) = [a] := by
  induction l with
  | nil => cases ha
  | cons b l ih =>
    obtain ⟨hb, hl⟩ := List.pairwise_cons.mp h
    rcases List.mem_cons.mp ha with rfl | ha
    · rw [List.filter_cons_of_pos (by simp), List.filter_eq_nil_iff.mpr]
      intro c hc
      simpa using (hb c hc).ne'
    · rw [List.filter_cons_of_neg (by simpa using (hb a ha).ne), ih hl ha]

/-- The entries of the least key come first. -/
theorem filter_prefix_sortBy {l : List α} {k : κ} (h : ∀ a ∈ l, k ≤ key a) :
    l.filter (key · = k) <+: sortBy key l := by
  have heq : sortBy key l = l.filter (key · = k) ++ (sortBy key l).filter (k < key ·) := by
    apply eq_of_filter_eq (sorted_sortBy key l)
    · rw [List.pairwise_append]
      refine ⟨?_, (sorted_sortBy key l).filter _, fun a ha b hb => ?_⟩
      · apply List.pairwise_of_forall_mem_list
        intro a ha b hb
        have hak : key a = k := by simpa using (List.mem_filter.mp ha).2
        have hbk : key b = k := by simpa using (List.mem_filter.mp hb).2
        rw [hak, hbk]
      · have hak : key a = k := by simpa using (List.mem_filter.mp ha).2
        have hbk : k < key b := by simpa using (List.mem_filter.mp hb).2
        rw [hak]
        exact hbk.le
    · intro k'
      rw [List.filter_append, filter_sortBy, List.filter_filter, List.filter_filter]
      by_cases hk : k' = k
      · subst hk
        have hnone : (sortBy key l).filter
            (fun a => decide (key a = k') && decide (k' < key a)) = [] := by
          apply List.filter_eq_nil_iff.mpr
          intro a _ ha
          have hboth : key a = k' ∧ k' < key a := by simpa using ha
          exact hboth.2.ne' hboth.1
        rw [hnone, List.append_nil]
        simp
      · have hnone : l.filter (fun a => decide (key a = k') && decide (key a = k)) = [] := by
          apply List.filter_eq_nil_iff.mpr
          intro a _ ha
          have hboth : key a = k' ∧ key a = k := by simpa using ha
          exact hk (hboth.1.symm.trans hboth.2)
        rw [hnone, List.nil_append, ← filter_sortBy l k']
        apply List.filter_congr
        intro a ha
        by_cases hak : key a = k'
        · have hlt : k < key a :=
            lt_of_le_of_ne (h a ((perm_sortBy l).mem_iff.mp ha)) (fun h' => hk (hak ▸ h'.symm))
          simp [hak, hak ▸ hlt]
        · simp [hak]
  rw [heq]
  exact List.prefix_append _ _

/-- Entries of ascending keys, the entries `top` of the key `k`, and the entries above it. -/
theorem pairwise_head {l gs top : List α} {k : κ} (hgs : gs.Pairwise fun a b => key a < key b)
    (hlt : ∀ a ∈ gs, key a < k) (htop : ∀ a ∈ top, key a = k) :
    (gs ++ top ++ (sortBy key l).filter (k < key ·)).Pairwise fun a b => key a ≤ key b := by
  rw [List.pairwise_append, List.pairwise_append]
  refine ⟨⟨hgs.imp le_of_lt, ?_, fun a ha b hb => ?_⟩, (sorted_sortBy key l).filter _,
    fun a ha b hb => ?_⟩
  · apply List.pairwise_of_forall_mem_list
    intro a ha b hb
    rw [htop a ha, htop b hb]
  · rw [htop b hb]
    exact (hlt a ha).le
  · have hkb : k < key b := by simpa using (List.mem_filter.mp hb).2
    rcases List.mem_append.mp ha with ha | ha
    · exact ((hlt a ha).trans hkb).le
    · rw [htop a ha]
      exact hkb.le

/-- The sorted list, when the entries of keys below `k` are `gs`, one of each key. -/
theorem sortBy_eq_append {l gs : List α} {k : κ} (hgs : gs.Pairwise fun a b => key a < key b)
    (hlt : ∀ a ∈ gs, key a < k) (hone : ∀ a ∈ gs, l.filter (key · = key a) = [a])
    (hbelow : ∀ a ∈ l, key a < k → ∃ b ∈ gs, key b = key a) :
    sortBy key l = gs ++ l.filter (key · = k) ++ (sortBy key l).filter (k < key ·) := by
  have htop : ∀ a ∈ l.filter (key · = k), key a = k := fun a ha => by
    simpa using (List.mem_filter.mp ha).2
  apply eq_of_filter_eq (sorted_sortBy key l) (pairwise_head hgs hlt htop)
  intro k'
  rw [filter_sortBy, List.filter_append, List.filter_append, List.filter_filter,
    List.filter_filter]
  rcases lt_trichotomy k' k with hk | rfl | hk
  · have hmid : (fun a => decide (key a = k') && decide (key a = k)) = fun _ => false := by
      funext a
      by_cases hak : key a = k'
      · simp [hak, hk.ne]
      · simp [hak]
    have habove : (fun a => decide (key a = k') && decide (k < key a)) = fun _ => false := by
      funext a
      by_cases hak : key a = k'
      · simp [hak, hk.le]
      · simp [hak]
    rw [hmid, habove, List.filter_false, List.filter_false, List.append_nil, List.append_nil]
    by_cases hex : ∃ b ∈ gs, key b = k'
    · obtain ⟨b, hb, rfl⟩ := hex
      rw [hone b hb, filter_eq_singleton hgs hb]
    · have hl : l.filter (key · = k') = [] := List.filter_eq_nil_iff.mpr fun a ha hak => by
        obtain rfl : key a = k' := by simpa using hak
        exact hex (hbelow a ha hk)
      rw [hl, List.filter_eq_nil_iff.mpr fun b hb hbk => hex ⟨b, hb, by simpa using hbk⟩]
  · have hgs₀ : gs.filter (key · = k') = [] :=
      List.filter_eq_nil_iff.mpr fun a ha => by simpa using (hlt a ha).ne
    have hmid : (fun a => decide (key a = k') && decide (key a = k')) =
        fun a => decide (key a = k') := by simp
    have habove : (fun a => decide (key a = k') && decide (k' < key a)) = fun _ => false := by
      funext a
      by_cases hak : key a = k'
      · simp [hak]
      · simp [hak]
    rw [hgs₀, hmid, habove, List.filter_false, List.append_nil, List.nil_append]
  · have hgs₀ : gs.filter (key · = k') = [] :=
      List.filter_eq_nil_iff.mpr fun a ha => by simpa using ((hlt a ha).trans hk).ne
    have hmid : (fun a => decide (key a = k') && decide (key a = k)) = fun _ => false := by
      funext a
      by_cases hak : key a = k'
      · simp [hak, hk.ne']
      · simp [hak]
    have habove : (fun a => decide (key a = k') && decide (k < key a)) =
        fun a => decide (key a = k') := by
      funext a
      by_cases hak : key a = k'
      · simp [hak, hk]
      · simp [hak]
    rw [hgs₀, hmid, habove, List.filter_false, List.append_nil, List.nil_append, filter_sortBy]

/-- When the sorted list starts with the entries `gs` and `g`, of ascending keys: there is no other
entry of the keys of `gs`, `g` is the first of its key, and every smaller key is one of `gs`. -/
theorem prefix_sortBy_iff {l gs : List α} {g : α}
    (hgs : (gs ++ [g]).Pairwise fun a b => key a < key b) :
    gs ++ [g] <+: sortBy key l ↔
      (∀ a ∈ gs, l.filter (key · = key a) = [a]) ∧ (l.filter (key · = key g)).head? = some g ∧
        ∀ a ∈ l, key a < key g → ∃ b ∈ gs, key b = key a := by
  obtain ⟨hgs', -, hlast⟩ := List.pairwise_append.mp hgs
  have hlast : ∀ a ∈ gs, key a < key g := fun a ha => hlast a ha g (List.mem_singleton_self g)
  have hnone : gs.filter (key · = key g) = [] :=
    List.filter_eq_nil_iff.mpr fun a ha => by simpa using (hlast a ha).ne
  constructor
  · rintro ⟨rest, hrest⟩
    have hsorted := sorted_sortBy key l
    rw [← hrest, List.pairwise_append] at hsorted
    have hge : ∀ a ∈ rest, key g ≤ key a := fun a ha => hsorted.2.2 g (by simp) a ha
    have hfilter : ∀ k, l.filter (key · = k) =
        gs.filter (key · = k) ++ [g].filter (key · = k) ++ rest.filter (key · = k) := by
      intro k
      rw [← filter_sortBy, ← hrest, List.filter_append, List.filter_append]
    refine ⟨fun a ha => ?_, ?_, fun a ha hlt => ?_⟩
    · have hrest' : rest.filter (key · = key a) = [] :=
        List.filter_eq_nil_iff.mpr fun b hb => by
          simpa using ((hlast a ha).trans_le (hge b hb)).ne'
      rw [hfilter, filter_eq_singleton hgs' ha, hrest',
        List.filter_cons_of_neg (by simpa using (hlast a ha).ne')]
      rfl
    · rw [hfilter, hnone, List.filter_cons_of_pos (by simp)]
      rfl
    · have hmem : a ∈ gs ++ [g] ++ rest := hrest ▸ (perm_sortBy l).mem_iff.mpr ha
      rcases List.mem_append.mp hmem with hmem | hmem
      · rcases List.mem_append.mp hmem with hmem | hmem
        · exact ⟨a, hmem, rfl⟩
        · rw [List.mem_singleton.mp hmem] at hlt
          exact absurd hlt (lt_irrefl _)
      · exact absurd hlt (not_lt.mpr (hge a hmem))
  · rintro ⟨hone, hhead, hbelow⟩
    obtain ⟨more, hmore⟩ : ∃ more, l.filter (key · = key g) = g :: more := by
      cases hf : l.filter (key · = key g) with
      | nil => rw [hf] at hhead; cases hhead
      | cons b more =>
        rw [hf] at hhead
        exact ⟨more, by rw [Option.some.inj hhead]⟩
    have heq := sortBy_eq_append hgs' hlast hone hbelow
    rw [hmore] at heq
    rw [heq]
    exact ⟨more ++ (sortBy key l).filter (key g < key ·), by simp⟩

/-- When each place `i ≤ n` of the sorted list holds an entry that is right for it, the keys of
right entries ascending: one entry has the key of each place before the last, the first of the last
key goes to the last place, and every smaller key is the key of a place. -/
theorem places_sortBy_iff (key : α → κ) (l : List α) {n : ℕ} (place : ℕ → κ) (Right : ℕ → α → Prop)
    (hplace : ∀ i j, i < j → j ≤ n → place i < place j)
    (hright : ∀ i ≤ n, ∀ a, Right i a → key a = place i) :
    (∀ i ≤ n, ∃ a, (sortBy key l)[i]? = some a ∧ Right i a) ↔
      (∀ i < n, ∃ a, l.filter (key · = place i) = [a] ∧ Right i a) ∧
        (∃ a, (l.filter (key · = place n)).head? = some a ∧ Right n a) ∧
          ∀ a ∈ l, key a < place n → ∃ i < n, key a = place i := by
  -- the entries at the places before `n`, and the one at `n`
  have hpair : ∀ g : ∀ i, i ≤ n → α, (∀ i hi, Right i (g i hi)) →
      (List.ofFn (fun i : Fin n => g i i.2.le) ++ [g n le_rfl]).Pairwise
        fun a b => key a < key b := by
    intro g hg
    have hkey : ∀ i hi, key (g i hi) = place i := fun i hi => hright i hi _ (hg i hi)
    rw [List.pairwise_append, List.pairwise_ofFn]
    refine ⟨fun i j hij => ?_, List.pairwise_singleton _ _, fun a ha b hb => ?_⟩
    · rw [hkey, hkey]
      exact hplace i j hij j.2.le
    · obtain ⟨i, rfl⟩ := List.mem_ofFn.mp ha
      rw [List.mem_singleton.mp hb, hkey, hkey]
      exact hplace i n i.2 le_rfl
  constructor
  · intro h
    choose g hget hg using h
    have hprefix : List.ofFn (fun i : Fin n => g i i.2.le) ++ [g n le_rfl] <+: sortBy key l := by
      rw [List.prefix_iff_getElem?]
      intro i hi
      have hin : i ≤ n := by simpa [Nat.lt_succ_iff] using hi
      rw [hget i hin, List.getElem_append]
      split_ifs with hlt
      · simp
      · obtain rfl : i = n := by simp at hlt; omega
        simp
    obtain ⟨hone, hlast, hbelow⟩ := (prefix_sortBy_iff (hpair g hg)).mp hprefix
    refine ⟨fun i hi => ⟨g i hi.le, ?_, hg i hi.le⟩, ⟨g n le_rfl, ?_, hg n le_rfl⟩,
      fun a ha hlt => ?_⟩
    · rw [← hright i hi.le _ (hg i hi.le)]
      exact hone _ (List.mem_ofFn.mpr ⟨⟨i, hi⟩, rfl⟩)
    · rw [← hright n le_rfl _ (hg n le_rfl)]
      exact hlast
    · rw [← hright n le_rfl _ (hg n le_rfl)] at hlt
      obtain ⟨b, hb, hba⟩ := hbelow a ha hlt
      obtain ⟨i, rfl⟩ := List.mem_ofFn.mp hb
      exact ⟨i, i.2, by rw [← hba, hright i i.2.le _ (hg i i.2.le)]⟩
  · rintro ⟨hone, hlast, hbelow⟩
    have hex : ∀ i ≤ n, ∃ a, Right i a ∧ (i < n → l.filter (key · = place i) = [a]) ∧
        (i = n → (l.filter (key · = place n)).head? = some a) := by
      intro i hi
      rcases hi.lt_or_eq with hlt | rfl
      · obtain ⟨a, ha, hr⟩ := hone i hlt
        exact ⟨a, hr, fun _ => ha, fun h => absurd h hlt.ne⟩
      · obtain ⟨a, ha, hr⟩ := hlast
        exact ⟨a, hr, fun h => absurd h (lt_irrefl _), fun _ => ha⟩
    choose g hg hone' hlast' using hex
    have hkey : ∀ i hi, key (g i hi) = place i := fun i hi => hright i hi _ (hg i hi)
    obtain ⟨rest, hrest⟩ := (prefix_sortBy_iff (hpair g hg)).mpr
      ⟨fun a ha => by
        obtain ⟨i, rfl⟩ := List.mem_ofFn.mp ha
        rw [hkey]
        exact hone' i i.2.le i.2, by rw [hkey]; exact hlast' n le_rfl rfl, fun a ha hlt => by
        rw [hkey] at hlt
        obtain ⟨i, hi, hai⟩ := hbelow a ha hlt
        exact ⟨g i hi.le, List.mem_ofFn.mpr ⟨⟨i, hi⟩, rfl⟩, by rw [hkey, hai]⟩⟩
    intro i hi
    refine ⟨g i hi, ?_, hg i hi⟩
    rw [← hrest, List.getElem?_append_left (by simpa [Nat.lt_succ_iff] using hi),
      List.getElem?_append]
    rcases hi.lt_or_eq with hlt | rfl
    · simp [hlt]
    · simp

end StableSort
