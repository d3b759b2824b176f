import Geniex.CB.Capacity
import Geniex.LLM.InputProvider

/-!
# The input providers of a batch

The token ids and the cos and sin rows of a pass. The adapters of both models write them in the same
way; they differ in the values with which they make the providers.

* `batch_rows_alone`: a session's rows in the batch are the rows that the providers of a single
  session write for its tokens alone, and the rows behind the batch hold token 0.
-/

namespace Geniex.CB

open FlatMem KVCacheManager Scheduler

/-- `Qwen3CBTokenIdProvider` and `Llama32CBTokenIdProvider`. -/
structure CBTokenIdProvider where
  padTokenId : Int32 := 0

/-- The ids that fit, padded to the capacity. -/
def CBTokenIdProvider.write (p : CBTokenIdProvider) (g : InputGraph) (ctx : StepContext) :
    Option (List Int32) :=
  if g.hasTokenIds = false then none
  else
    let n := min ctx.concatTokens.length g.ar
    some (ctx.concatTokens.take n ++ List.replicate (g.ar - n) p.padTokenId)

/-- `Qwen3CBRoPEProvider` and `Llama32CBRoPEProvider`. -/
structure CBRoPEProvider (K : Type) where
  rope : RotaryTable K

namespace CBRoPEProvider

variable {K : Type} [Field K] [LinearOrder K] (F : MathFns K) (p : CBRoPEProvider K) (g : InputGraph)
  (ctx : StepContext)

def writeCos : Option (List (List (Extended K))) :=
  if g.hasCos = false then none
  else some ((getPositionIds ctx.kvSegs ctx.inSegs ctx.seqLen).1.map (p.rope.cosRow F))

def writeSin : Option (List (List (Extended K))) :=
  if g.hasSin = false then none
  else some ((getPositionIds ctx.kvSegs ctx.inSegs ctx.seqLen).1.map (p.rope.sinRow F))

end CBRoPEProvider

/-- A session's rows of a step, as the providers of a single session get them. -/
def aloneContext (s : Session) (p : Part) : RunContext Int32 where
  tokenIds := stepTokens s p.2.2
  nPast := p.1.length
  currLen := p.2.2
  phase := .prefill

section Rows

variable {spec : LLMSpec} {σ : BatchState}

theorem length_resized (l : List Int32) (n : ℕ) : (resized l n).length = n := by
  unfold resized
  rw [List.length_append, List.length_take, List.length_replicate]
  omega

theorem resized_in {l : List Int32} {n i : ℕ} (hi : i < n) (hl : i < l.length) :
    (resized l n)[i]? = l[i]? := by
  unfold resized
  rw [List.getElem?_append_left (by rw [List.length_take]; omega), List.getElem?_take, if_pos hi]

theorem resized_out {l : List Int32} {n i : ℕ} (hi : i < n) (hl : l.length ≤ i) :
    (resized l n)[i]? = some 0 := by
  unfold resized
  rw [List.getElem?_append_right (by rw [List.length_take]; omega), List.getElem?_replicate,
    if_pos (by rw [List.length_take]; omega)]

/-- The tokens of a step fill the tensor: nothing is left to pad. -/
theorem CBTokenIdProvider.write_full (p : CBTokenIdProvider) {g : InputGraph} {ctx : StepContext}
    (hids : g.hasTokenIds = true) (hlen : ctx.concatTokens.length = g.ar) :
    p.write g ctx = some ctx.concatTokens := by
  unfold CBTokenIdProvider.write
  rw [if_neg (by simp [hids])]
  simp [hlen]

/-- The tokens that the sessions of the next batch feed. -/
theorem stepTokens_length (horder : Orderly σ.sessions) :
    ∀ q ∈ (pickedBatch spec σ).zip (pickedLens spec σ), (stepTokens q.1 q.2).length = q.2 := by
  intro q hq
  have hpicked := picked_getNextBatch spec horder.ids
  have hq1 := (List.of_mem_zip hq).1
  have hwoken : Orderly (getNextBatch σ.sessions spec.seqLenPrefill).1 :=
    (horder.woken batchFrom_sessions).1
  obtain ⟨heq, hle⟩ := stepTokens_eq (hwoken.tracked _ ((pickedBatch_spec σ).1.subset hq1))
    ((pickedBatch_spec σ).2 _ hq1) (hpicked.granted q hq)
  rw [heq, List.length_take, List.length_drop]
  omega

/-- The tokens of the next batch, before they are resized. -/
theorem batchTokens_length (horder : Orderly σ.sessions) :
    (((pickedBatch spec σ).zip (pickedLens spec σ)).flatMap fun q =>
      stepTokens q.1 q.2).length = (pickedLens spec σ).sum := by
  rw [List.length_flatMap, List.map_congr_left (stepTokens_length horder)]
  have hsnd : ((pickedBatch spec σ).zip (pickedLens spec σ)).map Prod.snd = pickedLens spec σ := by
    apply List.map_snd_zip
    rw [(pickedLens_spec spec σ).1]
  exact congrArg List.sum hsnd

/-- A token that fits keeps its row. -/
theorem tokenIds_row (p : TokenIdInputProvider) {g : InputGraph} {ctx : RunContext Int32} {j : ℕ}
    (hids : g.hasTokenIds = true) (hj : j < ctx.tokenIds.length) (hfit : j < g.ar) :
    (p.write g ctx).map (·[j]?) = some ctx.tokenIds[j]? := by
  unfold TokenIdInputProvider.write
  rw [if_neg (by simp [hids]), Option.map_some, Option.some.injEq,
    List.getElem?_append_left (by rw [List.length_map, List.length_take]; omega),
    List.getElem?_map, List.getElem?_take, if_pos (by omega)]
  exact Option.map_id'

/-- A position of the tokens keeps its row. -/
theorem paddedPositionIds_row {nPast currLen rows j : ℕ} (hj : j < currLen) :
    (paddedPositionIds nPast currLen rows)[j]? = some (Int32.ofNat (nPast + j)) := by
  unfold paddedPositionIds
  rw [List.getElem?_map, List.getElem?_range (by omega), Option.map_some, if_pos hj]

end Rows

/-- In a round that has room, the rows of a session are those that the providers of a single session
write for its tokens at its length alone. The rows behind the batch hold token 0, whatever token the
provider is made to pad with. -/
theorem batch_rows_alone {K : Type} [Field K] [LinearOrder K] (F : MathFns K) {spec : LLMSpec}
    {σ : BatchState} (h : Compacted spec σ) (horder : Orderly σ.sessions)
    (hroom : requiredKv spec σ ≤ spec.maxCl - spec.seqLenPrefill) {g : InputGraph}
    (hg : g.ar = spec.seqLenPrefill) (tokens : CBTokenIdProvider) (alone : TokenIdInputProvider)
    (rope : RotaryTable K) :
    let ctx := pickedContext spec σ
    (∀ p ∈ ctx.parts, ∃ s ∈ pickedBatch spec σ, s.id = p.1.sessionId ∧ ∀ j < p.2.2,
      (tokens.write g ctx).map (·[p.2.1 + j]?) =
          (alone.write g (aloneContext s p)).map (·[j]?) ∧
        (CBRoPEProvider.writeCos F ⟨rope⟩ g ctx).map (·[p.2.1 + j]?) =
          (RoPEInputProvider.writeCos F ⟨rope⟩ g (aloneContext s p)).map (·[j]?) ∧
        (CBRoPEProvider.writeSin F ⟨rope⟩ g ctx).map (·[p.2.1 + j]?) =
          (RoPEInputProvider.writeSin F ⟨rope⟩ g (aloneContext s p)).map (·[j]?)) ∧
    (g.hasTokenIds = true → ∀ k, (pickedLens spec σ).sum ≤ k → k < spec.seqLenPrefill →
      (tokens.write g ctx).map (·[k]?) = some (some 0)) := by
  intro ctx
  have hparts := h.parts (h.staysWithin (h.fits_iff.mpr hroom))
  have hlen : ctx.concatTokens.length = g.ar := (length_resized _ _).trans hg.symm
  refine ⟨fun p hp => ?_, fun hids k hk hlt => ?_⟩
  · obtain ⟨s, hin, hget⟩ := h.mem_parts.mp hp
    refine ⟨s, (List.of_mem_zip hin).1, (mem_of_getSegment hget).2.symm, fun j hj => ?_⟩
    have hrow : p.2.1 + j < spec.seqLenPrefill := by
      have := hparts.rows p hp
      omega
    have hfull : (stepTokens s p.2.2).length = p.2.2 :=
      stepTokens_length horder _ (mem_zip_lens hin)
    have hpos : (getPositionIds ctx.kvSegs ctx.inSegs ctx.seqLen).1[p.2.1 + j]? =
        (RoPEInputProvider.positions ⟨rope⟩ g (aloneContext s p))[j]? := by
      have hlong : p.2.1 + j < (getPositionIds ctx.kvSegs ctx.inSegs ctx.seqLen).1.length := by
        unfold getPositionIds
        rw [List.length_map, List.length_range]
        exact hrow
      have hget : (getPositionIds ctx.kvSegs ctx.inSegs ctx.seqLen).1.getD (p.2.1 + j) 0 =
          Int32.ofNat (p.1.length + j) := getPositionIds_row hparts hp hj
      rw [List.getD_eq_getElem _ _ hlong] at hget
      unfold RoPEInputProvider.positions
      rw [paddedPositionIds_row (show j < (aloneContext s p).currLen from hj),
        List.getElem?_eq_getElem hlong, hget]
      rfl
    refine ⟨?_, ?_, ?_⟩
    · cases hids : g.hasTokenIds with
      | false =>
        unfold CBTokenIdProvider.write TokenIdInputProvider.write
        rw [if_pos hids, if_pos hids]
        rfl
      | true =>
        have hflat := flatMap_inSegments [] rfl (stepTokens_length horder) hin hj
        rw [tokens.write_full hids hlen, tokenIds_row alone hids (hfull.symm ▸ hj) (by omega),
          Option.map_some, Option.some.injEq]
        refine (resized_in hrow ?_).trans hflat
        rw [batchTokens_length horder]
        have := inSegments_bounds _ (List.of_mem_zip hin).2
        omega
    · unfold CBRoPEProvider.writeCos RoPEInputProvider.writeCos
      split_ifs
      · rfl
      · simp only [Option.map_some, List.getElem?_map, hpos]
    · unfold CBRoPEProvider.writeSin RoPEInputProvider.writeSin
      split_ifs
      · rfl
      · simp only [Option.map_some, List.getElem?_map, hpos]
  · rw [tokens.write_full hids hlen, Option.map_some, Option.some.injEq]
    exact resized_out hlt ((batchTokens_length horder).le.trans hk)

/-- The two sessions of `tinyFull`: one has read its prompt and generated four tokens. -/
theorem tinyFull_orderly : Orderly (tinyFull 5).sessions where
  ids := show ["a", "b"].Nodup by decide
  tracked := fun s hs => by
    rcases List.mem_cons.mp hs with rfl | hs
    · exact ⟨rfl, rfl, fun _ => ⟨fun hread => absurd hread (by decide), fun _ => by decide,
        by decide⟩⟩
    · rw [List.mem_singleton.mp hs]
      exact tracked_new "b" [1, 1] 3

/-- Both sessions of a round get the rows of a session alone, and the rows behind them hold
token 0. -/
theorem batch_rows_alone_tiny :
    requiredKv sixteenColumns (tinyFull 5) ≤ 12 ∧
    (∀ p ∈ (pickedContext sixteenColumns (tinyFull 5)).parts,
      ∃ s ∈ pickedBatch sixteenColumns (tinyFull 5), s.id = p.1.sessionId ∧ ∀ j < p.2.2,
        (CBTokenIdProvider.write ⟨128001⟩ ⟨4, true, false, true, true, 4, 4⟩
            (pickedContext sixteenColumns (tinyFull 5))).map (·[p.2.1 + j]?) =
          (TokenIdInputProvider.write ⟨0⟩ ⟨4, true, false, true, true, 4, 4⟩
            (aloneContext s p)).map (·[j]?)) ∧
    ∀ k, (pickedLens sixteenColumns (tinyFull 5)).sum ≤ k → k < 4 →
      (CBTokenIdProvider.write ⟨128001⟩ ⟨4, true, false, true, true, 4, 4⟩
        (pickedContext sixteenColumns (tinyFull 5))).map (·[k]?) = some (some 0) := by
  have hrows := batch_rows_alone (⟨id, id, fun _ x => x, id, id⟩ : MathFns ℚ)
    (tinyFull_compacted (by decide) (by decide)) tinyFull_orderly (by decide)
    (g := ⟨4, true, false, true, true, 4, 4⟩) rfl ⟨128001⟩ ⟨0⟩ ⟨[.fin 1], .fin 1⟩
  refine ⟨by decide, fun p hp => ?_, hrows.2 rfl⟩
  obtain ⟨s, hs, hid, hsame⟩ := hrows.1 p hp
  exact ⟨s, hs, hid, fun j hj => (hsame j hj).1⟩

end Geniex.CB
