import Geniex.Lib.Rows
import Geniex.VLM.InputProvider

/-!
# Deepstack features in chunks

The compiled shard scatters the rows of a deepstack input onto the positions that the mask input
marks. `DeepstackInputProvider::write` gives every chunk its slice of the mask and the rows from its
first visual token on, so the shards of all chunks together scatter as one shard would over the whole
prompt (`deepstack_chunked`).
-/

namespace Geniex

open Rows

variable {τ R : Type}

/-- What the deepstack inputs of a graph hold. A row of zeros is `none`. -/
structure DeepstackTensors (R : Type) (g : VLMGraph) where
  mask : List Bool
  levels : ℕ → List (Option R)
  mask_length : mask.length = g.maskRows
  levels_length : ∀ k, (levels k).length = g.deepstackRows

namespace DeepstackInputProvider

variable (p : DeepstackInputProvider R) (g : VLMGraph) (ctx : RunContext τ)

theorem writeMask_length : (p.writeMask g ctx).length = g.maskRows := by
  simp [writeMask]

theorem writeLevel_length (level : List R) : (p.writeLevel g ctx level).length = g.deepstackRows := by
  have hle : (if p.IsVisualPrefill ctx then (level.drop (p.visualOffset ctx)).take g.deepstackRows
      else []).length ≤ g.deepstackRows := by
    split_ifs
    · exact List.length_take_le _ _
    · exact Nat.zero_le _
  simp only [writeLevel, List.length_append, List.length_map, List.length_replicate]
  omega

/-- The inputs of the graph after `write`. -/
def writeTensors (t : DeepstackTensors R g) : DeepstackTensors R g :=
  if g.hasVisualMask = false then t
  else
    { mask := overwrite t.mask (p.writeMask g ctx)
      levels := fun k =>
        match p.embeds[k]? with
        | some level =>
          if g.hasDeepstack k then overwrite (t.levels k) (p.writeLevel g ctx level)
          else t.levels k
        | none => t.levels k
      mask_length := by
        rw [overwrite_length (by rw [t.mask_length, writeMask_length]), t.mask_length]
      levels_length := fun k => by
        split
        · split_ifs
          · rw [overwrite_length (by rw [t.levels_length, writeLevel_length]), t.levels_length]
          · exact t.levels_length k
        · exact t.levels_length k }

section Written

variable {p g ctx}

/-- The mask is written as a whole. -/
theorem writeTensors_mask (hmask : g.hasVisualMask = true) (t : DeepstackTensors R g) :
    (p.writeTensors g ctx t).mask = p.writeMask g ctx := by
  rw [writeTensors, if_neg (by simp [hmask])]
  exact overwrite_full (by rw [t.mask_length, writeMask_length])

/-- Every level is written as a whole. -/
theorem writeTensors_levels (hmask : g.hasVisualMask = true) {k : ℕ} {level : List R}
    (hk : p.embeds[k]? = some level) (hinput : g.hasDeepstack k = true)
    (t : DeepstackTensors R g) : (p.writeTensors g ctx t).levels k = p.writeLevel g ctx level := by
  rw [writeTensors, if_neg (by simp [hmask])]
  simp only [hk, hinput, if_true]
  exact overwrite_full (by rw [t.levels_length, writeLevel_length])

end Written

end DeepstackInputProvider

/-! ## A chunk -/

/-- A chunk of a prompt: its pass, the graph, and what the deepstack inputs hold before. -/
structure DeepstackChunk (τ R : Type) where
  graph : VLMGraph
  ctx : RunContext τ
  before : DeepstackTensors R graph

namespace DeepstackChunk

variable (p : DeepstackInputProvider R) (c : DeepstackChunk τ R)

/-- A prefill pass over a graph whose inputs have a row for each of its tokens. -/
structure Fits : Prop where
  phase : c.ctx.phase = .prefill
  hasMask : c.graph.hasVisualMask = true
  maskRows : c.ctx.currLen ≤ c.graph.maskRows
  deepstackRows : c.ctx.currLen ≤ c.graph.deepstackRows

/-- The inputs after `write`. -/
def after : DeepstackTensors R c.graph := p.writeTensors c.graph c.ctx c.before

/-- The compiled shard: what each position of the chunk receives at level `k`. -/
def received (k : ℕ) : List (Option (Option R)) := scatter (c.after p).mask ((c.after p).levels k)

/-- The chunks follow one another from position `start` up to `stop`. -/
def Split : ℕ → ℕ → List (DeepstackChunk τ R) → Prop
  | start, stop, [] => start = stop
  | start, stop, c :: cs => c.ctx.nPast = start ∧ Split (start + c.ctx.currLen) stop cs

theorem Split.le {cs : List (DeepstackChunk τ R)} : ∀ {start stop : ℕ}, Split start stop cs →
    start ≤ stop := by
  induction cs with
  | nil => exact fun h => le_of_eq h
  | cons c cs ih => exact fun h => (Nat.le_add_right _ _).trans (ih h.2)

/-- Every chunk lies between the ends of the split. -/
theorem Split.mem {cs : List (DeepstackChunk τ R)} {c : DeepstackChunk τ R} (hc : c ∈ cs) :
    ∀ {start stop : ℕ}, Split start stop cs →
      start ≤ c.ctx.nPast ∧ c.ctx.nPast + c.ctx.currLen ≤ stop := by
  induction cs with
  | nil => cases hc
  | cons d cs ih =>
    rintro start stop ⟨rfl, hrest⟩
    rcases List.mem_cons.mp hc with rfl | hc
    · exact ⟨le_rfl, hrest.le⟩
    · obtain ⟨hle, hstop⟩ := ih hc hrest
      exact ⟨(Nat.le_add_right _ _).trans hle, hstop⟩

section Written

variable {p c} (hfit : c.Fits) (hstart : p.maskOffset ≤ c.ctx.nPast)
  (hstop : c.ctx.nPast + c.ctx.currLen ≤ p.maskOffset + p.mask.length)

include hfit hstart in
/-- A token is marked if it is visual. -/
theorem marked_eq (j : ℕ) :
    p.marked c.ctx j = p.mask.getD (c.ctx.nPast - p.maskOffset + j) false := by
  unfold DeepstackInputProvider.marked DeepstackInputProvider.rowRef
  by_cases hj : c.ctx.nPast - p.maskOffset + j < p.mask.length
  · have hne : p.mask ≠ [] := List.ne_nil_of_length_pos (Nat.zero_lt_of_lt hj)
    rw [if_pos ⟨⟨hfit.phase, hne, hstart⟩, hj⟩]
  · rw [if_neg fun h => hj h.2, List.getD_eq_getElem?_getD,
      List.getElem?_eq_none (Nat.le_of_not_lt hj), Option.getD_none]

include hfit hstart in
/-- The mask of the chunk, and nothing marked beyond it. -/
theorem after_mask_getElem? {j : ℕ} (hj : j < c.graph.maskRows) :
    (c.after p).mask[j]? = some (decide (j < c.ctx.currLen) &&
      p.mask.getD (c.ctx.nPast - p.maskOffset + j) false) := by
  rw [after, p.writeTensors_mask hfit.hasMask, DeepstackInputProvider.writeMask,
    List.getElem?_map, List.getElem?_range hj, Option.map_some, marked_eq hfit hstart]

include hfit hstart hstop in
theorem after_mask_take : (c.after p).mask.take c.ctx.currLen =
    (p.mask.drop (c.ctx.nPast - p.maskOffset)).take c.ctx.currLen := by
  refine List.ext_getElem? fun j => ?_
  by_cases hj : j < c.ctx.currLen
  · rw [List.getElem?_take_of_lt hj, List.getElem?_take_of_lt hj, List.getElem?_drop,
      after_mask_getElem? hfit hstart (hj.trans_le hfit.maskRows), decide_eq_true hj, Bool.true_and,
      List.getD_eq_getElem?_getD, List.getElem?_eq_getElem (by omega), Option.getD_some]
  · rw [List.getElem?_take_eq_none (Nat.le_of_not_lt hj),
      List.getElem?_take_eq_none (Nat.le_of_not_lt hj)]

/-- The rows that come first are those from the first visual token of the chunk on. -/
theorem writeLevel_take {level : List R} {n : ℕ} (hvisual : p.IsVisualPrefill c.ctx)
    (hn : n ≤ c.graph.deepstackRows) (hrows : p.visualOffset c.ctx + n ≤ level.length) :
    (p.writeLevel c.graph c.ctx level).take n =
      ((level.map some).drop (p.visualOffset c.ctx)).take n := by
  rw [DeepstackInputProvider.writeLevel, if_pos hvisual, List.take_append_of_le_length
    (by rw [List.length_map, List.length_take, List.length_drop]; omega), ← List.map_take,
    List.take_take, Nat.min_eq_left hn, List.map_take, List.map_drop]

variable {k : ℕ} {level : List R} (hk : p.embeds[k]? = some level)
  (hinput : c.graph.hasDeepstack k = true) (hrows : p.mask.count true ≤ level.length)

include hfit hstart hstop hk hinput hrows in
/-- The tokens of a chunk receive what a scatter over the whole prompt gives them. -/
theorem received_take : (c.received p k).take c.ctx.currLen =
    ((scatter p.mask (level.map some)).drop (c.ctx.nPast - p.maskOffset)).take c.ctx.currLen := by
  set i := c.ctx.nPast - p.maskOffset with hi
  rw [received, scatter_take, after_mask_take hfit hstart hstop, ← hi, scatter_window]
  refine scatter_congr ?_
  by_cases hne : p.mask = []
  · simp [hne]
  · have hvisual : p.IsVisualPrefill c.ctx := ⟨hfit.phase, hne, hstart⟩
    have hoffset : p.visualOffset c.ctx = (p.mask.take i).count true := by
      rw [DeepstackInputProvider.visualOffset, if_pos hvisual]
    -- the visual tokens before the chunk and in it are not more than those of the prompt
    have hcount : (p.mask.take i).count true +
        ((p.mask.drop i).take c.ctx.currLen).count true ≤ p.mask.count true := by
      conv_rhs => rw [← List.take_append_drop i p.mask, List.count_append]
      exact Nat.add_le_add_left ((List.take_sublist _ _).count_le _) _
    have hlen : ((p.mask.drop i).take c.ctx.currLen).count true ≤ c.ctx.currLen :=
      List.count_le_length.trans (List.length_take_le _ _)
    rw [after, p.writeTensors_levels hfit.hasMask hk hinput, writeLevel_take hvisual
      (hlen.trans hfit.deepstackRows) (by rw [hoffset]; omega), hoffset]

end Written

/-- What a chunk is fed at level `k`: the `v`-th visual token of the prompt receives row `v`, nothing
else is marked, and nothing of what the tensors held before is left. -/
structure Fed (p : DeepstackInputProvider R) (k : ℕ) (level : List R) (c : DeepstackChunk τ R) :
    Prop where
  rows : ∀ v i j, p.mask[i]? = some true → (p.mask.take i).count true = v → j < c.ctx.currLen →
    c.ctx.nPast + j = p.maskOffset + i →
    ∃ row, level[v]? = some row ∧ (c.received p k)[j]? = some (some (some row))
  marks : ∀ j < c.graph.maskRows, (c.after p).mask[j]? = some true ↔
    j < c.ctx.currLen ∧ p.mask[c.ctx.nPast - p.maskOffset + j]? = some true
  fresh : ∀ t : DeepstackTensors R c.graph,
    (p.writeTensors c.graph c.ctx t).mask = (c.after p).mask ∧
      (p.writeTensors c.graph c.ctx t).levels k = (c.after p).levels k

section Chunked

variable {p : DeepstackInputProvider R} {chunks : List (DeepstackChunk τ R)} {k : ℕ}
  {level : List R} (hfit : ∀ c ∈ chunks, c.Fits) (hk : p.embeds[k]? = some level)
  (hinput : ∀ c ∈ chunks, c.graph.hasDeepstack k = true)
  (hrows : p.mask.count true ≤ level.length)

include hk hrows in
theorem fed_of_fits {c : DeepstackChunk τ R} (hc : c.Fits) (hinput : c.graph.hasDeepstack k = true)
    (hstart : p.maskOffset ≤ c.ctx.nPast)
    (hstop : c.ctx.nPast + c.ctx.currLen ≤ p.maskOffset + p.mask.length) : c.Fed p k level := by
  refine ⟨fun v i j hi hv hj hpos => ?_, fun j hj => ?_, fun t => ⟨?_, ?_⟩⟩
  · have hvlt : v < level.length := hv ▸ (count_take_lt hi).trans_le hrows
    refine ⟨level[v], List.getElem?_eq_getElem hvlt, ?_⟩
    have hlocal : c.ctx.nPast - p.maskOffset + j = i := by omega
    have hrow := congrArg (·[j]?) (received_take hc hstart hstop hk hinput hrows)
    simp only [List.getElem?_take_of_lt hj, List.getElem?_drop, hlocal] at hrow
    rw [hrow, scatter_getElem? hi, hv, List.getElem?_map, List.getElem?_eq_getElem hvlt]
    rfl
  · rw [after_mask_getElem? hc hstart hj, List.getD_eq_getElem?_getD]
    rcases p.mask[c.ctx.nPast - p.maskOffset + j]? with _ | b
    · simp
    · simp
  · rw [after, p.writeTensors_mask hc.hasMask, p.writeTensors_mask hc.hasMask]
  · rw [after, p.writeTensors_levels hc.hasMask hk hinput, p.writeTensors_levels hc.hasMask hk hinput]

include hfit hk hinput hrows in
/-- From any token of the prompt on, the chunks scatter what is left. -/
theorem flatMap_received {start : ℕ} (hstart : p.maskOffset ≤ start)
    (hsplit : Split start (p.maskOffset + p.mask.length) chunks) :
    chunks.flatMap (fun c => (c.received p k).take c.ctx.currLen) =
      (scatter p.mask (level.map some)).drop (start - p.maskOffset) := by
  induction chunks generalizing start with
  | nil =>
    obtain rfl : start = _ := hsplit
    rw [List.drop_eq_nil_of_le (by simp), List.flatMap_nil]
  | cons c chunks ih =>
    obtain ⟨rfl, hrest⟩ := hsplit
    have hc := hfit c List.mem_cons_self
    rw [List.flatMap_cons, received_take hc hstart hrest.le hk (hinput c List.mem_cons_self) hrows,
      ih (fun d hd => hfit d (List.mem_cons_of_mem _ hd))
        (fun d hd => hinput d (List.mem_cons_of_mem _ hd)) (hstart.trans (Nat.le_add_right _ _)) hrest,
      Nat.sub_add_comm hstart, ← List.drop_drop, List.take_append_drop]

include hfit hk hinput hrows in
/-- **Deepstack features reach their tokens however the prompt is chunked.** -/
theorem deepstack_chunked (hsplit : Split p.maskOffset (p.maskOffset + p.mask.length) chunks) :
    (∀ c ∈ chunks, c.Fed p k level) ∧
      chunks.flatMap (fun c => (c.received p k).take c.ctx.currLen) =
        scatter p.mask (level.map some) := by
  refine ⟨fun c hc => ?_, ?_⟩
  · obtain ⟨hstart, hstop⟩ := Split.mem hc hsplit
    exact fed_of_fits hk hrows (hfit c hc) (hinput c hc) hstart hstop
  · rw [flatMap_received hfit hk hinput hrows le_rfl hsplit, Nat.sub_self, List.drop_zero]

end Chunked

/-- A chunk over a graph with two rows in each deepstack input, which held other rows before. -/
def tiny (nPast currLen : ℕ) : DeepstackChunk Int32 ℕ where
  graph := ⟨false, 0, false, false, 0, true, 2, fun k => decide (k = 0), 2⟩
  ctx := ⟨List.replicate currLen 7, nPast, currLen, .prefill⟩
  before := ⟨[true, true], fun _ => [some 0, some 0], rfl, fun _ => rfl⟩

/-- An instance of `deepstack_chunked`: an image whose tokens lie in two chunks. -/
theorem deepstack_chunked_straddle :
    [tiny 4 2, tiny 6 2, tiny 8 1].flatMap (fun c =>
        (c.received ⟨[[10, 11, 12]], [false, true, true, false, true], 4⟩ 0).take c.ctx.currLen) =
      scatter [false, true, true, false, true] [some 10, some 11, some 12] :=
  (deepstack_chunked (p := ⟨[[10, 11, 12]], [false, true, true, false, true], 4⟩) (k := 0)
    (by
      intro c hc
      simp only [List.mem_cons, List.not_mem_nil, or_false] at hc
      rcases hc with rfl | rfl | rfl <;> exact ⟨rfl, rfl, by decide, by decide⟩)
    (show [[10, 11, 12]][0]? = some [10, 11, 12] from rfl)
    (by
      intro c hc
      simp only [List.mem_cons, List.not_mem_nil, or_false] at hc
      rcases hc with rfl | rfl | rfl <;> rfl)
    (by decide) (show Split 4 9 [tiny 4 2, tiny 6 2, tiny 8 1] from ⟨rfl, rfl, rfl, rfl⟩)).2

end DeepstackChunk

end Geniex
