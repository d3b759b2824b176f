import Geniex.SSD.Alike
import Geniex.SSD.Bounds
import Geniex.VLM.SavedConversation

/-!
# What a reset leaves of a conversation

After `resetKVCache` every later sequence of calls is compared with the same sequence on a new
instance, whose executions are numbered from the first of these calls on.

* `FreshLLM`, `FreshSSD`, `FreshVLM`: the calls return the same, and the graphs and the sampler are
  given the same.
* `fresh_after_reset`: so it is when nothing was queued and a `Qwen25VLModel` had no offset left.
* `deltas_survive`: after an image, the positions of a `Qwen25VLModel` stay moved.
-/

namespace Geniex

/-! ## A new instance -/

section Fresh

variable {τ R ρ I : Type}

/-- A reset `LLMModel` is as good as new. -/
def FreshLLM [Token τ] (spec : LLMSpec) (env : Env τ ρ I) (w : World τ ρ I) : Prop :=
  ∀ kv outs hiddenIn, SameFrom spec
    (fun c : Request τ => generate spec env c.prompt c.cfg c.callback)
    (fun c => generate spec (env.since w.tick 0) c.prompt c.cfg c.callback) Request.Ready
    (resetKVCache spec w) (initWorld spec w.providers kv outs hiddenIn)

/-- A reset `SSDModel` is as good as new. -/
def FreshSSD (spec : LLMSpec) (ssd : SSDConfig) (env : Env Int32 ρ I) (w : World Int32 ρ I) :
    Prop :=
  ∀ kv outs hiddenIn, SameFrom spec
    (fun c : Request Int32 => ssd.generate spec env c.prompt c.cfg c.callback)
    (fun c => ssd.generate spec (env.since w.tick 0) c.prompt c.cfg c.callback) Request.Ready
    (ssd.resetKVCache spec w) (ssd.initWorld spec w.providers kv outs hiddenIn)

/-- A reset `VLMModel` is as good as new. -/
def FreshVLM [Token τ] (spec : LLMSpec) (s : VLMSettings) (env : VLMEnv τ R)
    (w : World τ (VLMState R) (VLMInputs R)) : Prop :=
  ∀ kv outs hiddenIn, SameFrom spec
    (fun c : VLMRequest τ => vlmGenerate spec s env c.prompt c.input c.cfg c.callback)
    (fun c => vlmGenerate spec s (env.since w.tick 0) c.prompt c.input c.cfg c.callback)
    (fun c => c.toRequest.Ready) (vlmResetKVCache spec s w)
    (initWorld spec (newProviders s w.providers.embProvider.table
      w.providers.embProvider.padEmbed) kv outs hiddenIn)

/-! ## The models -/

variable {spec : LLMSpec}

theorem freshLLM [Token τ] (hpad : Padded spec) (hhead : HeadLast spec) (env : Env τ ρ I)
    {w : World τ ρ I} (hidle : w.pending = []) : FreshLLM spec env w := by
  intro kv outs hiddenIn
  apply Alike.sameFrom (resetKVCache_alike hpad hidle kv outs hiddenIn) _ hpad hhead
  exact env.since_aligned (resetKVCache spec w) (initWorld spec w.providers kv outs hiddenIn)

theorem freshSSD (hpad : Padded spec) (ssd : SSDConfig) (env : Env Int32 ρ I)
    {w : World Int32 ρ I} (hidle : w.pending = []) : FreshSSD spec ssd env w := by
  intro kv outs hiddenIn
  apply SSDConfig.sameFrom_alike (ssd.resetKVCache_alike env hpad hidle kv outs hiddenIn) _ hpad
  exact env.since_aligned (ssd.resetKVCache spec w)
    (ssd.initWorld spec w.providers kv outs hiddenIn)

theorem freshVLM [Token τ] (hpad : Padded spec) (hhead : HeadLast spec) {s : VLMSettings}
    {env : VLMEnv τ R} {w : World τ (VLMState R) (VLMInputs R)} (h : VLMReachable spec s env w)
    (hidle : w.pending = []) (hdeltas : s.cls = .qwen25VL → w.providers.mropeDeltas = 0) :
    FreshVLM spec s env w := by
  intro kv outs hiddenIn
  have halike : VLMAlike spec env (vlmResetKVCache spec s w) _ (vlmResetKVCache spec s w) _ :=
    vlmResetKVCache_alike hpad h.deepstack_iff hidle hdeltas kv outs hiddenIn _ rfl
  have htick : (vlmResetKVCache spec s w).tick = w.tick := by
    unfold vlmResetKVCache
    cases s.cls <;> rfl
  have hsame := halike.sameFrom (s := s) hpad hhead
  rwa [htick] at hsame

/-- **A reset is a fresh start** when nothing is queued and no offset is left in a
`Qwen25VLModel`. -/
theorem fresh_after_reset (τ ρ I R : Type) [Token τ] (hpad : Padded spec) (hhead : HeadLast spec) :
    (∀ (env : Env τ ρ I) (w : World τ ρ I), Reachable spec env w → w.pending = [] →
        FreshLLM spec env w) ∧
      (∀ (ssd : SSDConfig) (env : Env Int32 ρ I) (w : World Int32 ρ I),
        SSDReachable spec ssd env w → w.pending = [] → FreshSSD spec ssd env w) ∧
      ∀ (s : VLMSettings) (env : VLMEnv τ R) (w : World τ (VLMState R) (VLMInputs R)),
        VLMReachable spec s env w → w.pending = [] →
        (s.cls = .qwen25VL → w.providers.mropeDeltas = 0) → FreshVLM spec s env w :=
  ⟨fun env _ _ hidle => freshLLM hpad hhead env hidle,
    fun ssd env _ _ hidle => freshSSD hpad ssd env hidle,
    fun _ _ _ h hidle hdeltas => freshVLM hpad hhead h hidle hdeltas⟩

end Fresh

/-! ## A text and an image before the reset -/

/-- After a call of each model. -/
theorem fresh_after_reset_text :
    FreshLLM twoContexts (tinyEnv 1 1) (tinyRun twoContexts (tinyEnv 1 1) [0, 0, 0] 2).2 ∧
      FreshSSD twoContexts tinySSD (tinyEnv 0 0) (tinySSD.generate twoContexts (tinyEnv 0 0) [0, 0]
        (tinyCfg 1) (fun _ => .continue) (tinySSDWorld twoContexts)).2 ∧
      FreshVLM twoContexts (tinySettings .qwen25VL) fourRowsEnv (firstCall textRequest).2 := by
  obtain ⟨hllm, hssd, hvlm⟩ := fresh_after_reset Int32 Unit Unit Int32 twoContexts_padded
    twoContexts_headLast
  have htext : (firstCall textRequest).1 = .ok [1] := by decide +kernel
  have hnew : SSDReachable twoContexts tinySSD (tinyEnv 0 0) (tinySSDWorld twoContexts) :=
    SSDReachable.init _ _ _ _
  refine ⟨hllm _ _ (tinyRun_reachable _ _ _ _ (by decide +kernel)) ?_,
    hssd _ _ _ (.generate [0, 0] (tinyCfg 1) (fun _ => .continue) hnew (Prod.mk.eta).symm) ?_,
    hvlm _ _ _ (firstCall_reachable htext) ?_ fun _ => ?_⟩
  · exact List.eq_nil_of_length_eq_zero (by decide +kernel)
  · exact List.eq_nil_of_length_eq_zero (by decide +kernel)
  · exact List.eq_nil_of_length_eq_zero (by decide +kernel)
  · decide +kernel

/-- A fresh model rotates its first prompt as a new one does. -/
theorem FreshVLM.callRopes {env : VLMEnv Int32 Int32}
    {w : World Int32 (VLMState Int32) (VLMInputs Int32)}
    (h : FreshVLM twoContexts (tinySettings .qwen25VL) env w) (hidle : w.pending = [])
    (c : VLMRequest Int32) (hprompt : c.prompt ≠ []) (kv : KVMem) (outs : ℕ → GraphOut)
    (hiddenIn : ℕ → ℕ → UInt8) :
    Geniex.callRopes (env.since w.tick 0) c (initWorld twoContexts
        (newProviders (tinySettings .qwen25VL) w.providers.embProvider.table
          w.providers.embProvider.padEmbed) kv outs hiddenIn) =
      Geniex.callRopes env c (vlmResetKVCache twoContexts (tinySettings .qwen25VL) w) :=
  (h kv outs hiddenIn).callRopes hidle c hprompt

/-- After an image the offset of its positions is still added to those of the next text. -/
theorem deltas_survive :
    VLMReachable twoContexts (tinySettings .qwen25VL) fourRowsEnv (firstCall imageRequest).2 ∧
      (firstCall imageRequest).2.pending = [] ∧
      ¬FreshVLM twoContexts (tinySettings .qwen25VL) fourRowsEnv (firstCall imageRequest).2 := by
  have himage : (firstCall imageRequest).1 = .ok [1] := by decide +kernel
  have hidle : (firstCall imageRequest).2.pending = [] :=
    List.eq_nil_of_length_eq_zero (by decide +kernel)
  refine ⟨firstCall_reachable himage, hidle, fun h => ?_⟩
  -- the new instance rotates the text by position 0, the reset one by -3
  have hropes := h.callRopes hidle textRequest (List.cons_ne_nil _ _) (fun _ _ => 0)
    (fun _ => ⟨fun _ _ => 0, fun _ => 0, fun _ => 0⟩) fun _ _ => 0
  exact absurd hropes (by decide +kernel)

end Geniex
