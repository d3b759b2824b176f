import Geniex.Lib.Moves

/-!
# The segments of concurrent sessions in one KV cache

`KVCacheManager` keeps, for each session of a batch, a range of columns of one shared KV buffer. It
speaks in offsets only; the caller applies the moves that it returns.

* `Spaced growth next segs`: the segments lie in order from `next` on, each with room for its
  growth behind it.
* `compact_relocates`, `shiftForGrowth_relocates`: the moves, applied in order, bring every column
  of every session to its new place. `compact` moves left to right, `shiftForGrowth` right to left.
* `compact_tight`: no gap is left. `shiftForGrowth_spaced`: every session has room to grow.
-/

namespace Geniex.CB

open FlatMem

/-- `KVCacheSegment`. -/
structure KVCacheSegment where
  sessionId : String
  startPos : ℕ := 0
  length : ℕ := 0
  deriving DecidableEq, Repr

/-- The first column past the segment. -/
def KVCacheSegment.fin (seg : KVCacheSegment) : ℕ := seg.startPos + seg.length

/-- `KVCacheManager`: its `segments_`. -/
abbrev KVCacheManager : Type := List KVCacheSegment

namespace KVCacheManager

/-- `getSegment(session_id)`. -/
def getSegment (segs : KVCacheManager) (id : String) : Option KVCacheSegment :=
  segs.find? fun seg => seg.sessionId == id

/-- `allocate(session_id, length)`: a new segment behind the last one. -/
def allocate (segs : KVCacheManager) (id : String) (length : ℕ) : KVCacheManager :=
  segs ++ [⟨id, (segs.getLast?.map KVCacheSegment.fin).getD 0, length⟩]

/-- `extend(session_id, additional_length)`: the first segment of the session. -/
def extend (id : String) (additional : ℕ) : KVCacheManager → KVCacheManager
  | [] => []
  | seg :: rest =>
    if seg.sessionId = id then { seg with length := seg.length + additional } :: rest
    else seg :: extend id additional rest

/-- `release(session_id)`. -/
def release (segs : KVCacheManager) (id : String) : KVCacheManager :=
  segs.eraseP fun seg => seg.sessionId == id

/-- The loop of `compact`, from `next_pos` on. -/
def compactFrom : ℕ → KVCacheManager → List Move × KVCacheManager
  | _, [] => ([], [])
  | next, seg :: rest =>
    if seg.startPos ≠ next ∧ 0 < seg.length then
      let r := compactFrom (next + seg.length) rest
      (⟨seg.startPos, next, seg.length⟩ :: r.1, { seg with startPos := next } :: r.2)
    else
      -- an empty segment stays where it is
      let r := compactFrom seg.fin rest
      (r.1, seg :: r.2)

/-- `compact()`: the moves and the segments after it. -/
def compact (segs : KVCacheManager) : List Move × KVCacheManager := compactFrom 0 segs

/-- `for (const auto& [id, g] : growth_list) growth[id] = g;`, absent ids at 0. -/
def growthOf (growthList : List (String × ℕ)) : String → ℕ :=
  growthList.foldl (fun f g => Function.update f g.1 g.2) fun _ => 0

/-- The two loops over `shift[i]`, the growth of the segments before `i`: the moves of the later
segments come first. -/
def shiftFrom (growth : String → ℕ) : ℕ → KVCacheManager → List Move × KVCacheManager
  | _, [] => ([], [])
  | shift, seg :: rest =>
    let r := shiftFrom growth (shift + growth seg.sessionId) rest
    (r.1 ++ (if 0 < shift ∧ 0 < seg.length then
        [⟨seg.startPos, seg.startPos + shift, seg.length⟩] else []),
      { seg with startPos := seg.startPos + shift } :: r.2)

/-- The last loop of `shiftForGrowth`: empty segments, right behind their predecessor's growth. -/
def reseat (growth : String → ℕ) : ℕ → KVCacheManager → KVCacheManager
  | _, [] => []
  | pos, seg :: rest =>
    let seg' := if seg.length = 0 then { seg with startPos := pos } else seg
    seg' :: reseat growth (seg'.fin + growth seg'.sessionId) rest

/-- `shiftForGrowth(growth_list)`: the moves and the segments after it. -/
def shiftForGrowth (segs : KVCacheManager) (growthList : List (String × ℕ)) :
    List Move × KVCacheManager :=
  let r := shiftFrom (growthOf growthList) 0 segs
  (r.1, reseat (growthOf growthList) 0 r.2)

/-- `totalUsed()`. -/
def totalUsed (segs : KVCacheManager) : ℕ := segs.foldl (fun fin seg => max fin seg.fin) 0

/-! ## Segments in order -/

/-- The segments lie in order from column `next` on, each with room for its growth behind it. -/
def Spaced (growth : String → ℕ) : ℕ → KVCacheManager → Prop
  | _, [] => True
  | next, seg :: rest =>
    next ≤ seg.startPos ∧ Spaced growth (seg.fin + growth seg.sessionId) rest

/-- The segments lie in order and apart. -/
abbrev Laid (next : ℕ) (segs : KVCacheManager) : Prop := Spaced (fun _ => 0) next segs

/-- The segments lie in order from column `next` on without a gap. -/
def Tight : ℕ → KVCacheManager → Prop
  | _, [] => True
  | next, seg :: rest => seg.startPos = next ∧ Tight seg.fin rest

variable {growth : String → ℕ} {next : ℕ} {segs : KVCacheManager}

theorem Spaced.mono {next' : ℕ} (hle : next' ≤ next) (h : Spaced growth next segs) :
    Spaced growth next' segs := by
  cases segs with
  | nil => trivial
  | cons seg rest => exact ⟨hle.trans h.1, h.2⟩

/-- Less growth needs less room. -/
theorem Spaced.less {growth' : String → ℕ} (hle : ∀ id, growth' id ≤ growth id)
    (h : Spaced growth next segs) : Spaced growth' next segs := by
  induction segs generalizing next with
  | nil => trivial
  | cons seg rest ih => exact ⟨h.1, (ih h.2).mono (Nat.add_le_add_left (hle _) _)⟩

theorem Spaced.laid (h : Spaced growth next segs) : Laid next segs := h.less fun _ => Nat.zero_le _

theorem Tight.laid (h : Tight next segs) : Laid next segs := by
  induction segs generalizing next with
  | nil => trivial
  | cons seg rest ih => exact ⟨h.1.ge, ih h.2⟩

/-- No segment starts before the first column. -/
theorem Spaced.start_ge (h : Spaced growth next segs) {seg : KVCacheSegment} (hseg : seg ∈ segs) :
    next ≤ seg.startPos := by
  induction segs generalizing next with
  | nil => cases hseg
  | cons head rest ih =>
    rcases List.mem_cons.mp hseg with rfl | hin
    · exact h.1
    · have hfin : head.fin + growth head.sessionId ≤ seg.startPos := ih h.2 hin
      have hhead := h.1
      unfold KVCacheSegment.fin at hfin
      omega

/-- Two sessions' segments lie apart, room included. -/
theorem Spaced.apart (h : Spaced growth next segs) (hids : (segs.map (·.sessionId)).Nodup)
    {a b : KVCacheSegment} (ha : a ∈ segs) (hb : b ∈ segs) (hne : a.sessionId ≠ b.sessionId) :
    a.fin + growth a.sessionId ≤ b.startPos ∨ b.fin + growth b.sessionId ≤ a.startPos := by
  induction segs generalizing next with
  | nil => cases ha
  | cons seg rest ih =>
    rw [List.map_cons, List.nodup_cons] at hids
    rcases List.mem_cons.mp ha with rfl | ha'
    · rcases List.mem_cons.mp hb with rfl | hb'
      · exact absurd rfl hne
      · exact Or.inl (h.2.start_ge hb')
    · rcases List.mem_cons.mp hb with rfl | hb'
      · exact Or.inr (h.2.start_ge ha')
      · exact ih h.2 hids.2 ha' hb'

theorem foldl_max_ge (segs : KVCacheManager) (n : ℕ) :
    n ≤ segs.foldl (fun fin seg => max fin seg.fin) n ∧
      ∀ seg ∈ segs, seg.fin ≤ segs.foldl (fun fin seg => max fin seg.fin) n := by
  induction segs generalizing n with
  | nil => exact ⟨le_rfl, fun _ h => by cases h⟩
  | cons head rest ih =>
    obtain ⟨hn, hrest⟩ := ih (max n head.fin)
    refine ⟨(le_max_left _ _).trans hn, fun seg hseg => ?_⟩
    rcases List.mem_cons.mp hseg with rfl | hin
    · exact (le_max_right _ _).trans hn
    · exact hrest seg hin

/-- Every segment ends by `totalUsed`. -/
theorem fin_le_totalUsed {seg : KVCacheSegment} (h : seg ∈ segs) : seg.fin ≤ totalUsed segs :=
  (foldl_max_ge segs 0).2 seg h

theorem totalUsed_le {n : ℕ} (h : ∀ seg ∈ segs, seg.fin ≤ n) : totalUsed segs ≤ n := by
  unfold totalUsed
  have hfold : ∀ k ≤ n, segs.foldl (fun fin seg => max fin seg.fin) k ≤ n := by
    induction segs with
    | nil => exact fun k hk => hk
    | cons seg rest ih =>
      intro k hk
      exact ih (fun s hs => h s (List.mem_cons_of_mem _ hs)) _
        (max_le hk (h seg List.mem_cons_self))
  exact hfold 0 (Nat.zero_le n)

/-! ## Sessions that keep their columns -/

variable {β : Type}

/-- A session's segment before and after a relocation: the same columns, at another place. -/
structure Relocated (m m' : ℕ → β) (seg seg' : KVCacheSegment) : Prop where
  sessionId : seg'.sessionId = seg.sessionId
  length : seg'.length = seg.length
  column : ∀ k < seg.length, m' (seg'.startPos + k) = m (seg.startPos + k)

/-- Every segment is carried, in order. -/
abbrev Relocates (m m' : ℕ → β) (segs segs' : KVCacheManager) : Prop :=
  List.Forall₂ (Relocated m m') segs segs'

theorem Relocates.ids {m m' : ℕ → β} {segs' : KVCacheManager} (h : Relocates m m' segs segs') :
    segs'.map (·.sessionId) = segs.map (·.sessionId) := by
  induction h with
  | nil => rfl
  | cons hseg _ ih => rw [List.map_cons, List.map_cons, hseg.sessionId, ih]

theorem Relocates.lengths {m m' : ℕ → β} {segs' : KVCacheManager} (h : Relocates m m' segs segs') :
    segs'.map (·.length) = segs.map (·.length) := by
  induction h with
  | nil => rfl
  | cons hseg _ ih => rw [List.map_cons, List.map_cons, hseg.length, ih]

theorem Relocates.trans {m m' m'' : ℕ → β} {segs' segs'' : KVCacheManager}
    (h : Relocates m m' segs segs') (h' : Relocates m' m'' segs' segs'') :
    Relocates m m'' segs segs'' := by
  induction h generalizing segs'' with
  | nil => cases h'; exact .nil
  | cons hseg _ ih =>
    cases h' with
    | cons hseg' hrest =>
      refine .cons ⟨hseg'.sessionId.trans hseg.sessionId, hseg'.length.trans hseg.length, ?_⟩
        (ih hrest)
      intro k hk
      rw [hseg'.column k (by rw [hseg.length]; exact hk), hseg.column k hk]

/-- What a memory holds of each segment only matters there. -/
theorem Relocates.source {m₀ m m' : ℕ → β} {segs' : KVCacheManager} (h : Relocates m m' segs segs')
    (hm : ∀ seg ∈ segs, ∀ k < seg.length, m (seg.startPos + k) = m₀ (seg.startPos + k)) :
    Relocates m₀ m' segs segs' := by
  induction h with
  | nil => exact .nil
  | cons hseg _ ih =>
    refine .cons ⟨hseg.sessionId, hseg.length, fun k hk => ?_⟩
      (ih fun s hs => hm s (List.mem_cons_of_mem _ hs))
    rw [hseg.column k hk, hm _ List.mem_cons_self k hk]

theorem Relocates.target {m m' m₁ : ℕ → β} {segs' : KVCacheManager} (h : Relocates m m' segs segs')
    (hm : ∀ seg ∈ segs', ∀ k < seg.length, m₁ (seg.startPos + k) = m' (seg.startPos + k)) :
    Relocates m m₁ segs segs' := by
  induction h with
  | nil => exact .nil
  | cons hseg _ ih =>
    refine .cons ⟨hseg.sessionId, hseg.length, fun k hk => ?_⟩
      (ih fun s hs => hm s (List.mem_cons_of_mem _ hs))
    rw [hm _ List.mem_cons_self k (by rw [hseg.length]; exact hk), hseg.column k hk]

/-! ## `compact` -/

/-- The moves of the rest start at its first column. -/
theorem compactFrom_moves (h : Laid next segs) :
    ∀ mv ∈ (compactFrom next segs).1, next ≤ mv.dst ∧ mv.dst ≤ mv.src ∧
      ∃ seg ∈ segs, mv.src = seg.startPos ∧ mv.len = seg.length := by
  induction segs generalizing next with
  | nil => exact fun _ hmv => by cases hmv
  | cons seg rest ih =>
    obtain ⟨hstart, hrest⟩ := h
    have hmem : ∀ s ∈ rest, s ∈ seg :: rest := fun s hs => List.mem_cons_of_mem _ hs
    intro mv hmv
    unfold compactFrom at hmv
    split_ifs at hmv with hc
    · rcases List.mem_cons.mp hmv with rfl | hin
      · exact ⟨le_rfl, hstart, seg, List.mem_cons_self, rfl, rfl⟩
      · have hle : next + seg.length ≤ seg.fin := Nat.add_le_add_right hstart _
        obtain ⟨hdst, hsrc, s, hs, hof⟩ := ih (hrest.mono hle) mv hin
        exact ⟨by omega, hsrc, s, hmem s hs, hof⟩
    · obtain ⟨hdst, hsrc, s, hs, hof⟩ := ih hrest mv hmv
      unfold KVCacheSegment.fin at hdst
      exact ⟨by omega, hsrc, s, hmem s hs, hof⟩

theorem compactFrom_relocates (h : Laid next segs) (m : ℕ → β) :
    Relocates m (runMoves (compactFrom next segs).1 m) segs (compactFrom next segs).2 := by
  induction segs generalizing next m with
  | nil => exact .nil
  | cons seg rest ih =>
    obtain ⟨hstart, hrest⟩ := h
    unfold compactFrom
    split_ifs with hc
    · have hle : next + seg.length ≤ seg.fin := Nat.add_le_add_right hstart _
      have hlaid : Laid (next + seg.length) rest := hrest.mono hle
      rw [runMoves_cons]
      refine .cons ⟨rfl, rfl, fun k hk => ?_⟩ ((ih hlaid _).source fun s hs k _ => ?_)
      · -- the later moves write behind the moved segment
        rw [runMoves_out _ fun mv hmv => ?_, memmove_in hk]
        have hdst := (compactFrom_moves hlaid mv hmv).1
        show next + k < mv.dst ∨ _
        omega
      · -- the move writes in front of the later segments
        have hs' : seg.fin ≤ s.startPos := hrest.start_ge hs
        apply memmove_out
        show _ ∨ next + seg.length ≤ s.startPos + k
        omega
    · refine .cons ⟨rfl, rfl, fun k hk => ?_⟩ (ih hrest m)
      apply runMoves_out
      intro mv hmv
      have := (compactFrom_moves hrest mv hmv).1
      unfold KVCacheSegment.fin at this
      unfold Move.Misses
      omega

/-- Every session keeps its columns when the gaps are closed. -/
theorem compact_relocates (h : Laid 0 segs) (m : ℕ → β) :
    Relocates m (runMoves (compact segs).1 m) segs (compact segs).2 := compactFrom_relocates h m

/-- No gap is left between segments that hold something. -/
theorem compactFrom_tight (hpos : ∀ seg ∈ segs, 0 < seg.length) :
    Tight next (compactFrom next segs).2 := by
  induction segs generalizing next with
  | nil => trivial
  | cons seg rest ih =>
    have hrest := fun s hs => hpos s (List.mem_cons_of_mem _ hs)
    unfold compactFrom
    split_ifs with hc
    · exact ⟨rfl, ih hrest⟩
    · have hseg := hpos seg List.mem_cons_self
      exact ⟨by omega, ih hrest⟩

theorem compact_tight (hpos : ∀ seg ∈ segs, 0 < seg.length) : Tight 0 (compact segs).2 :=
  compactFrom_tight hpos

theorem compactFrom_filled (hpos : ∀ seg ∈ segs, 0 < seg.length) :
    ∀ seg ∈ (compactFrom next segs).2, 0 < seg.length := by
  induction segs generalizing next with
  | nil => exact fun _ hs => by cases hs
  | cons head rest ih =>
    rw [List.forall_mem_cons] at hpos
    unfold compactFrom
    split_ifs
    · exact List.forall_mem_cons.mpr ⟨hpos.1, ih hpos.2⟩
    · exact List.forall_mem_cons.mpr ⟨hpos.1, ih hpos.2⟩

theorem compact_filled (hpos : ∀ seg ∈ segs, 0 < seg.length) :
    ∀ seg ∈ (compact segs).2, 0 < seg.length := compactFrom_filled hpos

/-- The segments stay in order, empty ones included, and none moves to the right. -/
theorem compactFrom_laid (h : Laid next segs) : Laid next (compactFrom next segs).2 := by
  induction segs generalizing next with
  | nil => trivial
  | cons seg rest ih =>
    obtain ⟨hstart, hrest⟩ := h
    unfold compactFrom
    split_ifs with hc
    · have hle : next + seg.length ≤ seg.fin := Nat.add_le_add_right hstart _
      exact ⟨le_rfl, ih (hrest.mono hle)⟩
    · exact ⟨hstart, ih hrest⟩

theorem compact_laid (h : Laid 0 segs) : Laid 0 (compact segs).2 := compactFrom_laid h

theorem compactFrom_fin {n : ℕ} (h : Laid next segs) (hn : ∀ seg ∈ segs, seg.fin ≤ n) :
    ∀ seg ∈ (compactFrom next segs).2, seg.fin ≤ n := by
  induction segs generalizing next with
  | nil => exact fun _ hs => by cases hs
  | cons head rest ih =>
    obtain ⟨hstart, hrest⟩ := h
    have hhead : head.startPos + head.length ≤ n := hn head List.mem_cons_self
    have hn' := fun s hs => hn s (List.mem_cons_of_mem _ hs)
    have hle : next + head.length ≤ head.fin := Nat.add_le_add_right hstart _
    intro seg hseg
    unfold compactFrom at hseg
    split_ifs at hseg with hc
    · rcases List.mem_cons.mp hseg with rfl | hin
      · exact hle.trans hhead
      · exact ih (hrest.mono hle) hn' seg hin
    · rcases List.mem_cons.mp hseg with rfl | hin
      · exact hhead
      · exact ih hrest hn' seg hin

theorem compact_fin (h : Laid 0 segs) : ∀ seg ∈ (compact segs).2, seg.fin ≤ totalUsed segs :=
  compactFrom_fin h fun _ => fin_le_totalUsed

/-- `compact` moves within the columns in use. -/
theorem compact_within (h : Laid 0 segs) : ∀ mv ∈ (compact segs).1, mv.Within (totalUsed segs) := by
  intro mv hmv
  obtain ⟨-, hle, seg, hseg, hsrc, hlen⟩ := compactFrom_moves h mv hmv
  have hfin := fin_le_totalUsed hseg
  unfold KVCacheSegment.fin at hfin
  unfold Move.Within
  omega

/-! ## `shiftForGrowth` -/

/-- The growth of all the segments. -/
def totalGrowth (growth : String → ℕ) (segs : KVCacheManager) : ℕ :=
  (segs.map fun seg => growth seg.sessionId).sum

theorem shiftFrom_moves (growth : String → ℕ) (shift : ℕ) (h : Laid next segs) :
    ∀ mv ∈ (shiftFrom growth shift segs).1, next ≤ mv.src ∧ mv.src + shift ≤ mv.dst ∧
      mv.src + mv.len ≤ totalUsed segs ∧
      mv.dst + mv.len ≤ totalUsed segs + shift + totalGrowth growth segs := by
  have hall : ∀ n, (∀ seg ∈ segs, seg.fin ≤ n) → ∀ mv ∈ (shiftFrom growth shift segs).1,
      next ≤ mv.src ∧ mv.src + shift ≤ mv.dst ∧ mv.src + mv.len ≤ n ∧
        mv.dst + mv.len ≤ n + shift + totalGrowth growth segs := by
    intro n hn
    induction segs generalizing next shift with
    | nil => exact fun _ hmv => by cases hmv
    | cons seg rest ih =>
      obtain ⟨hstart, hrest⟩ := h
      have hfin : seg.startPos + seg.length ≤ n := hn seg List.mem_cons_self
      have hgrow : totalGrowth growth (seg :: rest) =
          growth seg.sessionId + totalGrowth growth rest := rfl
      intro mv hmv
      rcases List.mem_append.mp hmv with hin | hin
      · have hmove := ih (shift + growth seg.sessionId) hrest
          (fun s hs => hn s (List.mem_cons_of_mem _ hs)) mv hin
        unfold KVCacheSegment.fin at hmove
        omega
      · split_ifs at hin with hc
        · obtain rfl := List.mem_singleton.mp hin
          show next ≤ seg.startPos ∧ seg.startPos + shift ≤ seg.startPos + shift ∧
            seg.startPos + seg.length ≤ n ∧ seg.startPos + shift + seg.length ≤ _
          omega
        · cases hin
  exact hall _ fun seg hseg => fin_le_totalUsed hseg

/-- Every shifted segment has room for its growth behind it. -/
theorem shiftFrom_spaced (growth : String → ℕ) (shift : ℕ) (h : Laid next segs) :
    Spaced growth (next + shift) (shiftFrom growth shift segs).2 := by
  induction segs generalizing next shift with
  | nil => trivial
  | cons seg rest ih =>
    obtain ⟨hstart, hrest⟩ := h
    refine ⟨Nat.add_le_add_right hstart _, (ih _ hrest).mono ?_⟩
    show seg.startPos + shift + seg.length + growth seg.sessionId ≤ _
    unfold KVCacheSegment.fin
    omega

/-- The shifted segments, before the empty ones are seated anew. -/
theorem shiftFrom_relocates {shift : ℕ} (h : Laid next segs) (m : ℕ → β) :
    Relocates m (runMoves (shiftFrom growth shift segs).1 m) segs
      (shiftFrom growth shift segs).2 := by
  induction segs generalizing next shift with
  | nil => exact .nil
  | cons seg rest ih =>
    obtain ⟨-, hrest⟩ := h
    have hmoves := shiftFrom_moves growth (shift + growth seg.sessionId) hrest
    unfold shiftFrom
    rw [runMoves_append]
    -- the rest has moved away to the right before this segment moves
    have hstill : ∀ k < seg.length,
        runMoves (shiftFrom growth (shift + growth seg.sessionId) rest).1 m (seg.startPos + k) =
          m (seg.startPos + k) := by
      intro k hk
      apply runMoves_out
      intro mv hmv
      have := hmoves mv hmv
      unfold KVCacheSegment.fin at this
      unfold Move.Misses
      omega
    refine .cons ⟨rfl, rfl, fun k hk => ?_⟩ ((ih hrest).target fun s hs k hk => ?_)
    · split_ifs with hc
      · rw [runMoves_cons, runMoves_nil, memmove_in hk, hstill k hk]
      · have hshift : shift = 0 := by omega
        subst hshift
        rw [Nat.add_zero, runMoves_nil, hstill k hk]
    · split_ifs with hc
      · rw [runMoves_cons, runMoves_nil]
        apply memmove_out
        have hstart := (shiftFrom_spaced growth (shift + growth seg.sessionId) hrest).start_ge hs
        unfold KVCacheSegment.fin at hstart
        show _ ∨ seg.startPos + shift + seg.length ≤ s.startPos + k
        omega
      · rfl

/-- Seating the empty segments anew moves them to the left, and keeps the room of all. -/
theorem reseat_spaced {pos : ℕ} (h : Spaced growth pos segs) :
    Spaced growth pos (reseat growth pos segs) := by
  induction segs generalizing pos with
  | nil => trivial
  | cons seg rest ih =>
    obtain ⟨hstart, hrest⟩ := h
    unfold reseat
    split_ifs with hc
    · refine ⟨le_rfl, ih (hrest.mono ?_)⟩
      show pos + seg.length + growth seg.sessionId ≤ seg.startPos + seg.length + _
      omega
    · exact ⟨hstart, ih hrest⟩

theorem reseat_relocates {pos : ℕ} {segs' : KVCacheManager} {m m' : ℕ → β}
    (h : Relocates m m' segs segs') : Relocates m m' segs (reseat growth pos segs') := by
  induction h generalizing pos with
  | nil => exact .nil
  | cons hseg _ ih =>
    rename_i seg seg' rest rest' _
    unfold reseat
    refine .cons ?_ ih
    split_ifs with hc
    · refine ⟨hseg.sessionId, hseg.length, fun k hk => ?_⟩
      rw [← hseg.length, hc] at hk
      exact absurd hk (Nat.not_lt_zero k)
    · exact hseg

/-- Every session keeps its columns when room is made for the growth of all. -/
theorem shiftForGrowth_relocates (h : Laid 0 segs) (growthList : List (String × ℕ)) (m : ℕ → β) :
    Relocates m (runMoves (shiftForGrowth segs growthList).1 m) segs
      (shiftForGrowth segs growthList).2 :=
  reseat_relocates (shiftFrom_relocates h m)

/-- Behind every segment there is room for its growth. -/
theorem shiftForGrowth_spaced (h : Laid 0 segs) (growthList : List (String × ℕ)) :
    Spaced (growthOf growthList) 0 (shiftForGrowth segs growthList).2 := by
  apply reseat_spaced
  have h' := shiftFrom_spaced (growthOf growthList) 0 h
  rwa [Nat.add_zero] at h'

theorem shiftFrom_fin (growth : String → ℕ) (shift : ℕ) {n : ℕ} (hn : ∀ seg ∈ segs, seg.fin ≤ n) :
    ∀ seg ∈ (shiftFrom growth shift segs).2,
      seg.fin + growth seg.sessionId ≤ n + shift + totalGrowth growth segs := by
  induction segs generalizing shift with
  | nil => exact fun _ h => by cases h
  | cons head rest ih =>
    have hgrow : totalGrowth growth (head :: rest) =
        growth head.sessionId + totalGrowth growth rest := rfl
    intro seg hseg
    rcases List.mem_cons.mp hseg with rfl | hin
    · have hfin : head.startPos + head.length ≤ n := hn head List.mem_cons_self
      show head.startPos + shift + head.length + growth head.sessionId ≤ _
      omega
    · have hrest := ih (shift + growth head.sessionId)
        (fun s hs => hn s (List.mem_cons_of_mem _ hs)) seg hin
      omega

theorem reseat_fin {pos n : ℕ} (h : Spaced growth pos segs)
    (hn : ∀ seg ∈ segs, seg.fin + growth seg.sessionId ≤ n) :
    ∀ seg ∈ reseat growth pos segs, seg.fin + growth seg.sessionId ≤ n := by
  induction segs generalizing pos with
  | nil => exact fun _ hs => by cases hs
  | cons head rest ih =>
    obtain ⟨hstart, hrest⟩ := h
    have hhead : head.startPos + head.length + growth head.sessionId ≤ n :=
      hn head List.mem_cons_self
    have hn' := fun s hs => hn s (List.mem_cons_of_mem _ hs)
    intro seg hseg
    unfold reseat at hseg
    split_ifs at hseg with hc
    · rcases List.mem_cons.mp hseg with rfl | hin
      · show pos + head.length + growth head.sessionId ≤ n
        omega
      · refine ih (hrest.mono ?_) hn' seg hin
        show pos + head.length + growth head.sessionId ≤ head.startPos + head.length + _
        omega
    · rcases List.mem_cons.mp hseg with rfl | hin
      · exact hhead
      · exact ih hrest hn' seg hin

/-- The room of every segment ends by what was in use and the growth of all. -/
theorem shiftForGrowth_fin (h : Laid 0 segs) (growthList : List (String × ℕ)) :
    ∀ seg ∈ (shiftForGrowth segs growthList).2, seg.fin + growthOf growthList seg.sessionId ≤
      totalUsed segs + totalGrowth (growthOf growthList) segs := by
  have hspaced := shiftFrom_spaced (growthOf growthList) 0 h
  rw [Nat.add_zero] at hspaced
  apply reseat_fin hspaced
  have hfin := shiftFrom_fin (growthOf growthList) 0 fun seg => @fin_le_totalUsed segs seg
  rwa [Nat.add_zero] at hfin

/-- `shiftForGrowth` moves within the columns that it makes room in. -/
theorem shiftForGrowth_within (h : Laid 0 segs) (growthList : List (String × ℕ)) :
    ∀ mv ∈ (shiftForGrowth segs growthList).1,
      mv.Within (totalUsed segs + totalGrowth (growthOf growthList) segs) := by
  intro mv hmv
  have := shiftFrom_moves (growthOf growthList) 0 h mv hmv
  unfold Move.Within
  omega

/-! ## Growth -/

theorem growthOf_concat (l : List (String × ℕ)) (g : String × ℕ) :
    growthOf (l ++ [g]) = Function.update (growthOf l) g.1 g.2 := by
  unfold growthOf
  rw [List.foldl_append]
  rfl

/-- A session that is not in the list does not grow. -/
theorem growthOf_out {l : List (String × ℕ)} {id : String} (h : id ∉ l.map Prod.fst) :
    growthOf l id = 0 := by
  induction l using List.reverseRecOn with
  | nil => rfl
  | append_singleton l g ih =>
    rw [List.map_append, List.mem_append, not_or] at h
    have hne : id ≠ g.1 := fun heq => h.2 (by simp [heq])
    rw [growthOf_concat, Function.update_of_ne hne, ih h.1]

/-- A session's entry in a list that names each session once. -/
theorem growthOf_of_mem {l : List (String × ℕ)} (hl : (l.map Prod.fst).Nodup) {g : String × ℕ}
    (hg : g ∈ l) : growthOf l g.1 = g.2 := by
  induction l using List.reverseRecOn with
  | nil => cases hg
  | append_singleton l g' ih =>
    rw [List.map_append, List.nodup_append] at hl
    rw [growthOf_concat]
    rcases List.mem_append.mp hg with hin | hin
    · have hne : g.1 ≠ g'.1 :=
        hl.2.2 g.1 (List.mem_map_of_mem hin) g'.1 (List.mem_singleton_self _)
      rw [Function.update_of_ne hne, ih hl.1 hin]
    · obtain rfl := List.mem_singleton.mp hin
      rw [Function.update_self]

/-- The growth of a manager's segments is at most the growth that was asked for. -/
theorem totalGrowth_le (hids : (segs.map (·.sessionId)).Nodup) (l : List (String × ℕ)) :
    totalGrowth (growthOf l) segs ≤ (l.map Prod.snd).sum := by
  induction l using List.reverseRecOn with
  | nil =>
    have hzero : ∀ segs : KVCacheManager, totalGrowth (growthOf []) segs = 0 := by
      intro segs
      induction segs with
      | nil => rfl
      | cons seg rest ih => exact (Nat.zero_add _).trans ih
    rw [hzero]
    exact Nat.zero_le _
  | append_singleton l g ih =>
    have hstep : totalGrowth (growthOf (l ++ [g])) segs ≤ totalGrowth (growthOf l) segs + g.2 := by
      rw [growthOf_concat]
      clear ih
      induction segs with
      | nil => exact Nat.zero_le _
      | cons seg rest ih =>
        rw [List.map_cons, List.nodup_cons] at hids
        have hrest := ih hids.2
        unfold totalGrowth at hrest ⊢
        rw [List.map_cons, List.map_cons, List.sum_cons, List.sum_cons]
        by_cases hid : seg.sessionId = g.1
        · -- the session is named by no other segment
          have hsame : rest.map (fun s => Function.update (growthOf l) g.1 g.2 s.sessionId) =
              rest.map fun s => growthOf l s.sessionId := by
            apply List.map_congr_left
            intro s hs
            refine Function.update_of_ne (fun heq => hids.1 ?_) _ _
            rw [hid, ← heq]
            exact List.mem_map_of_mem hs
          rw [hsame, hid, Function.update_self]
          omega
        · rw [Function.update_of_ne hid]
          omega
    rw [List.map_append, List.sum_append]
    simp only [List.map_cons, List.map_nil, List.sum_cons, List.sum_nil]
    omega

/-- A segment after its session's growth. -/
def grow (growth : String → ℕ) (seg : KVCacheSegment) : KVCacheSegment :=
  { seg with length := seg.length + growth seg.sessionId }

theorem extend_eq (hids : (segs.map (·.sessionId)).Nodup) (id : String) (n : ℕ) :
    extend id n segs = segs.map (grow (Function.update (fun _ => 0) id n)) := by
  induction segs with
  | nil => rfl
  | cons seg rest ih =>
    rw [List.map_cons, List.nodup_cons] at hids
    unfold extend
    split_ifs with hid
    · have hrest : ∀ s ∈ rest, grow (Function.update (fun _ => 0) id n) s = s := by
        intro s hs
        have hne : s.sessionId ≠ id := fun heq =>
          hids.1 (hid.trans heq.symm ▸ List.mem_map_of_mem hs)
        simp [grow, Function.update_of_ne hne]
      rw [List.map_cons, List.map_congr_left hrest, List.map_id']
      simp [grow, hid]
    · rw [List.map_cons, ih hids.2]
      simp [grow, Function.update_of_ne hid]

/-- The sessions of a step grow by what the step was given for them. -/
theorem extendAll_eq (hids : (segs.map (·.sessionId)).Nodup) {l : List (String × ℕ)}
    (hl : (l.map Prod.fst).Nodup) :
    l.foldl (fun segs g => extend g.1 g.2 segs) segs = segs.map (grow (growthOf l)) := by
  induction l using List.reverseRecOn with
  | nil => exact (List.map_id'' (fun _ => rfl) segs).symm
  | append_singleton l g ih =>
    rw [List.map_append, List.nodup_append] at hl
    have hnew : growthOf l g.1 = 0 :=
      growthOf_out fun h => hl.2.2 g.1 h g.1 (List.mem_singleton_self _) rfl
    have hids' : ((segs.map (grow (growthOf l))).map (·.sessionId)).Nodup := by
      rwa [List.map_map]
    rw [List.foldl_append, ih hl.1]
    show extend g.1 g.2 _ = _
    rw [extend_eq hids', List.map_map, growthOf_concat]
    apply List.map_congr_left
    intro seg _
    by_cases hid : seg.sessionId = g.1
    · simp [grow, hid, hnew]
    · simp [grow, Function.update_of_ne hid]

/-- Grown into their room, the segments still lie in order. -/
theorem Spaced.grown (h : Spaced growth next segs) : Laid next (segs.map (grow growth)) := by
  induction segs generalizing next with
  | nil => trivial
  | cons seg rest ih =>
    refine ⟨h.1, (ih h.2).mono ?_⟩
    show seg.startPos + (seg.length + growth seg.sessionId) + 0 ≤ seg.startPos + seg.length + _
    omega

/-! ## `allocate` and `release` -/

/-- Fewer segments lie in order too. -/
theorem Spaced.sublist {segs' : KVCacheManager} (hsub : segs'.Sublist segs)
    (h : Spaced growth next segs) : Spaced growth next segs' := by
  induction hsub generalizing next with
  | slnil => trivial
  | cons seg _ ih =>
    refine ih (h.2.mono (h.1.trans ?_))
    unfold KVCacheSegment.fin
    omega
  | cons_cons seg _ ih => exact ⟨h.1, ih h.2⟩

theorem allocate_laid (h : Laid next segs) (hne : segs = [] → next = 0) (id : String) (n : ℕ) :
    Laid next (allocate segs id n) := by
  unfold allocate
  induction segs generalizing next with
  | nil =>
    rw [hne rfl]
    exact ⟨le_rfl, trivial⟩
  | cons seg rest ih =>
    refine ⟨h.1, ?_⟩
    cases rest with
    | nil => exact ⟨le_rfl, trivial⟩
    | cons seg' rest =>
      rw [List.getLast?_cons_cons]
      exact ih h.2 fun hnil => by cases hnil

end KVCacheManager

end Geniex.CB
