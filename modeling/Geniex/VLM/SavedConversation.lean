import Geniex.VLM.Alike
import Geniex.VLM.ImageRows

/-!
# Conversations continued from a file

A file holds the position, the context length, the tokens and the KV buffers of an instance. What
prompts are prepared from is not in it, and neither is the sampler: after a load the second instance
has its own.

* `ContinuesAlike`: whatever is asked later, both instances give their graphs the same.
* `continuesAlike_of_sameUnsaved`: so it is when they had the same of what the file leaves out.
* `offset_lost`: a text after an image is rotated by other positions in the second instance.
-/

namespace Geniex

variable {R : Type} {spec : LLMSpec} {s : VLMSettings} {env : VLMEnv Int32 R}
  {v w : World Int32 (VLMState R) (VLMInputs R)}

/-- What a file leaves out, and a call reads. -/
structure SameUnsaved (v w : World Int32 (VLMState R) (VLMInputs R)) : Prop where
  providers : ProvidersAlike v.providers w.providers
  sampler : w.sampler = v.sampler
  samplerCfg : v.sampler ≠ none → w.samplerCfg = v.samplerCfg

/-- An instance that has loaded the file of `v` goes on as `v` does. -/
def ContinuesAlike (spec : LLMSpec) (s : VLMSettings) (env : VLMEnv Int32 R)
    (v w : World Int32 (VLMState R) (VLMInputs R)) : Prop :=
  SameFrom spec
    (fun c : VLMRequest Int32 => vlmGenerate spec s env c.prompt c.input c.cfg c.callback)
    (fun c => vlmGenerate spec s (env.since v.tick w.tick) c.prompt c.input c.cfg c.callback)
    (fun c => c.toRequest.Ready) v (loaded spec v w)

/-- The tokens come back as they were saved. -/
theorem map_ofId_id (tokens : List Int32) :
    tokens.map (fun t => (Token.ofId (Token.id t) : Int32)) = tokens :=
  List.map_id tokens

/-- A load makes two instances alike. -/
theorem SameUnsaved.loaded (h : SameUnsaved v w) (hv : Counted spec v) (hidle : v.pending = [])
    (hidle' : w.pending = []) :
    VLMAlike spec env v (loaded spec v w) v (loaded spec v w) := by
  have hkv : ∀ t, spec.hasTensor t = true →
      ∀ i < spec.byteCount t (spec.kvLen .prefill v.activeClIdx),
        loadedKV spec v.kv w.kv t i = v.kv t i := by
    intro t ht i hi
    have hle : spec.byteCount t (spec.kvLen .prefill v.activeClIdx) ≤
        spec.byteCount t (spec.kvLen .prefill (spec.numCl - 1)) :=
      byteCount_le (spec.kvLen_le_last hv.active)
    exact if_pos ⟨ht, hi.trans_le hle⟩
  rw [loaded_eq hv]
  exact
    { left :=
        { active := rfl
          activeLt := hv.active
          nPast := rfl
          tokenHistory := map_ofId_id v.tokenHistory
          sampler := h.sampler
          samplerCfg := h.samplerCfg
          providers := rfl
          pending := hidle'.trans hidle.symm
          tick := ⟨0, rfl, rfl⟩
          kv := hkv
          sameLog := SameLog.refl _ _
          jobs := JobsAlike.of_nil hidle }
      providers := h.providers }

/-- **A saved conversation goes on alike** in an instance that had the same of what the file leaves
out. -/
theorem continuesAlike_of_sameUnsaved (hpad : Padded spec) (hhead : HeadLast spec)
    (hv : VLMReachable spec s env v) (hidle : v.pending = []) (hidle' : w.pending = [])
    (h : SameUnsaved v w) : ContinuesAlike spec s env v w := by
  have hcounted := hv.reachable.counted
  have halike : VLMAlike spec env v (loaded spec v w) v (loaded spec v w) :=
    h.loaded hcounted hidle hidle'
  have htick : (loaded spec v w).tick = w.tick := by rw [loaded_eq hcounted]
  have hsame := halike.sameFrom (s := s) hpad hhead
  rwa [htick] at hsame

/-! ## A text and an image before the save -/

/-- A model whose images have four rows. -/
def fourRowsEnv : VLMEnv Int32 Int32 :=
  { tinyVLMEnv Int32 with encode := visionEncode .qwen25VL ⟨4, 4, 1, 1, 2, 1, 0⟩ tinyVisionGraph }

/-- A request of the given prompt, for one token. -/
def shortRequest (prompt : List Int32) (input : VLMInput) : VLMRequest Int32 :=
  ⟨⟨prompt, tinyCfg 1, fun _ => .continue⟩, input⟩

def textRequest : VLMRequest Int32 := shortRequest [7] noImage

/-- An image of two by two merged patches. -/
def imageRequest : VLMRequest Int32 :=
  shortRequest (151652 :: List.replicate 4 151655) ⟨⟨List.replicate 48 0, [⟨1, 4, 4⟩]⟩⟩

/-- A call on a new `Qwen25VLModel`. -/
def firstCall (c : VLMRequest Int32) :
    Except Err (List Int32) × World Int32 (VLMState Int32) (VLMInputs Int32) :=
  vlmGenerate twoContexts (tinySettings .qwen25VL) fourRowsEnv c.prompt c.input c.cfg c.callback
    (tinyVLM Int32 twoContexts .qwen25VL)

theorem firstCall_reachable {c : VLMRequest Int32} {out : List Int32}
    (h : (firstCall c).1 = .ok out) :
    VLMReachable twoContexts (tinySettings .qwen25VL) fourRowsEnv (firstCall c).2 := by
  have hne : ∀ err : Err, (firstCall c).1 ≠ .error err := by
    intro err herr
    rw [h] at herr
    cases herr
  exact VLMReachable.generate c.prompt c.input c.cfg c.callback (.init ..) rfl (hne _) (hne _)

theorem twoContexts_padded : Padded twoContexts := by
  rintro ⟨shard, pair, isKey⟩ ht
  have hone : shard < 1 := shard_lt_of_hasTensor ht
  obtain rfl : shard = 0 := Nat.lt_one_iff.mp hone
  obtain rfl : pair = 0 := Nat.lt_one_iff.mp (of_decide_eq_true ht)
  cases isKey <;> rfl

theorem twoContexts_headLast : HeadLast twoContexts := by
  intro s hs _
  have hone : twoContexts.shardCount = 1 := rfl
  omega

/-- A text conversation that is saved, dropped by a reset and loaded again. -/
theorem continuesAlike_of_sameUnsaved_text :
    ContinuesAlike twoContexts (tinySettings .qwen25VL) fourRowsEnv (firstCall textRequest).2
      (vlmResetKVCache twoContexts (tinySettings .qwen25VL) (firstCall textRequest).2) := by
  have htext : (firstCall textRequest).1 = .ok [1] := by decide +kernel
  have hidle : (firstCall textRequest).2.pending = [] :=
    List.eq_nil_of_length_eq_zero (by decide +kernel)
  have hgreedy : (firstCall textRequest).2.sampler = none :=
    Option.isNone_iff_eq_none.mp (by decide +kernel)
  have hreset : ∀ v : World Int32 (VLMState Int32) (VLMInputs Int32), v.pending = [] →
      v.sampler = none →
      (vlmResetKVCache twoContexts (tinySettings .qwen25VL) v).pending = [] ∧
        SameUnsaved v (vlmResetKVCache twoContexts (tinySettings .qwen25VL) v) :=
    fun v hpending hnone =>
      ⟨hpending, ProvidersAlike.refl _, hnone.symm, fun hne => absurd hnone hne⟩
  obtain ⟨hidle', hunsaved⟩ := hreset _ hidle hgreedy
  exact continuesAlike_of_sameUnsaved twoContexts_padded twoContexts_headLast
    (firstCall_reachable htext) hidle hidle' hunsaved

/-- The rotations of an execution. -/
def ropeOf : Event Int32 (VLMInputs Int32) → Option (List RopeRow)
  | .exec x => x.input.inputs.cos
  | _ => none

theorem ropeOf_blind (e : Event Int32 (VLMInputs Int32)) : ropeOf e.blind = ropeOf e := by
  cases e <;> rfl

/-- The rotations that a call of a `Qwen25VLModel` gives its graphs. -/
def callRopes (env : VLMEnv Int32 Int32) (c : VLMRequest Int32)
    (w : World Int32 (VLMState Int32) (VLMInputs Int32)) : List (List RopeRow) :=
  let w' := (vlmGenerate twoContexts (tinySettings .qwen25VL) env c.prompt c.input c.cfg
    c.callback w).2
  (w'.trace.take (w'.trace.length - w.trace.length)).filterMap ropeOf

/-- Two instances that do the same give their graphs the same rotations. -/
theorem SameFrom.callRopes {env env' : VLMEnv Int32 Int32}
    {w₀ v₀ : World Int32 (VLMState Int32) (VLMInputs Int32)}
    (h : SameFrom twoContexts (fun c : VLMRequest Int32 => vlmGenerate twoContexts
        (tinySettings .qwen25VL) env c.prompt c.input c.cfg c.callback)
      (fun c => vlmGenerate twoContexts (tinySettings .qwen25VL) env' c.prompt c.input c.cfg
        c.callback) (fun c => c.toRequest.Ready) w₀ v₀) (hidle : w₀.pending = [])
    (c : VLMRequest Int32) (hprompt : c.prompt ≠ []) :
    Geniex.callRopes env' c v₀ = Geniex.callRopes env c w₀ :=
  (h _ _ .start c ⟨hprompt, hidle⟩).2.filterMap ropeOf ropeOf_blind

/-- After an image the second instance adds its own offset to the positions of the next text. -/
theorem offset_lost :
    VLMReachable twoContexts (tinySettings .qwen25VL) fourRowsEnv (firstCall imageRequest).2 ∧
      (firstCall imageRequest).2.pending = [] ∧
      VLMReachable twoContexts (tinySettings .qwen25VL) fourRowsEnv
        (tinyVLM Int32 twoContexts .qwen25VL) ∧
      ¬ContinuesAlike twoContexts (tinySettings .qwen25VL) fourRowsEnv (firstCall imageRequest).2
        (tinyVLM Int32 twoContexts .qwen25VL) := by
  have himage : (firstCall imageRequest).1 = .ok [1] := by decide +kernel
  have hidle : (firstCall imageRequest).2.pending = [] :=
    List.eq_nil_of_length_eq_zero (by decide +kernel)
  refine ⟨firstCall_reachable himage, hidle, .init .., fun h => ?_⟩
  have hropes := h.callRopes hidle textRequest (List.cons_ne_nil _ _)
  exact absurd hropes (by decide +kernel)

end Geniex
