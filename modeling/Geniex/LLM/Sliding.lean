import Geniex.LLM.Sampling

/-!
# How much the sliding window evicts

* `slideDiscard_fits_iff`: the amount makes room whenever some amount does.
* `trySlide_evicts`, `trySlide_idle`: what `try_slide` does with it.
* `decodeLoop_roomy`: with room for one token above the anchored prefix, decoding never meets the
  context limit.
-/

namespace Geniex

open Prog

variable {τ ρ I : Type} {spec : LLMSpec} {env : Env τ ρ I}

/-! ## The amount -/

section Amount

variable {nPast nFit maxCl nKeep : ℕ}

/-- Evicting `d` positions above the prefix makes room. -/
def MakesRoom (nPast nFit maxCl nKeep d : ℕ) : Prop :=
  0 < d ∧ d ≤ nPast - nKeep ∧ nPast - d + nFit ≤ maxCl

theorem computeSlideDiscard_zero (h : nPast ≤ nKeep) :
    computeSlideDiscard nPast nFit maxCl nKeep = 0 := by
  unfold computeSlideDiscard
  rw [if_pos h]

/-- The amount is what is needed at least, or all there is above the prefix. -/
theorem le_computeSlideDiscard {d : ℕ} (hd : d ≤ nPast - nKeep)
    (hneed : nPast + nFit ≤ maxCl + d) (h : nKeep < nPast) :
    nPast + nFit ≤ maxCl + computeSlideDiscard nPast nFit maxCl nKeep := by
  unfold computeSlideDiscard
  rw [if_neg (not_le.mpr h)]
  dsimp only
  split_ifs <;> omega

/-- In want of room, the amount makes room if and only if some amount does. -/
theorem slideDiscard_fits_iff (hfull : maxCl < nPast + nFit) :
    MakesRoom nPast nFit maxCl nKeep (computeSlideDiscard nPast nFit maxCl nKeep) ↔
      ∃ d, MakesRoom nPast nFit maxCl nKeep d := by
  refine ⟨fun h => ⟨_, h⟩, fun ⟨d, hpos, hd, hfit⟩ => ?_⟩
  have hle := computeSlideDiscard_le nPast nFit maxCl nKeep
  have hneed : nPast + nFit ≤ maxCl + computeSlideDiscard nPast nFit maxCl nKeep :=
    le_computeSlideDiscard hd (by omega) (by omega)
  refine ⟨?_, hle, ?_⟩ <;> omega

end Amount

/-! ## The attempt -/

variable [Token τ]

/-- The history has a token for each position. -/
structure Sized (spec : LLMSpec) (w : World τ ρ I) : Prop where
  size : w.tokenHistory.length = w.nPast
  active : w.activeClIdx < spec.numCl

/-- An eviction that returns has taken the positions `[k, k + d)` out of the history. -/
theorem slideWindowEvict_sized {w₀ : World τ ρ I} (h : Sized spec w₀) {k d : ℕ} (hd : d ≠ 0)
    (hkd : k + d ≤ w₀.nPast) (atDecodeStride : Bool) :
    Triple (fun w => w = w₀) (slideWindowEvict spec env d k atDecodeStride)
      (fun _ w => w.nPast = w₀.nPast - d ∧
        w.tokenHistory = w₀.tokenHistory.take k ++ w₀.tokenHistory.drop (k + d))
      fun _ _ => True := by
  have hsize := h.size
  refine Triple.when (fun _ => Triple.get fun w₁ hw₁ => ?_) fun h0 => absurd hd h0
  subst hw₁
  refine Triple.bind (R := fun _ => Quietly spec
      (w₁.log (.evictEntry w₁.nPast w₁.tokenHistory.length k d)))
    (Triple.modify fun w hw => hw ▸ Quietly.refl _) fun _ => ?_
  refine Triple.bind (R := fun _ => Quietly spec
      (w₁.log (.evictEntry w₁.nPast w₁.tokenHistory.length k d)))
    (Triple.when (fun _ => Triple.modify fun w hw => hw.trans (restrideActive_quietly _ _ _ w))
      fun _ _ hw => hw) fun _ => Triple.of_eq fun w₂ hw₂ => ?_
  have htake : resizeHistory w₂.tokenHistory k = w₁.tokenHistory.take k := by
    unfold resizeHistory
    rw [show w₂.tokenHistory = w₁.tokenHistory from hw₂.tokenHistory,
      show k - w₁.tokenHistory.length = 0 by omega, List.replicate_zero, List.append_nil]
  set w₃ := { w₂ with nPast := k, tokenHistory := resizeHistory w₂.tokenHistory k } with hw₃
  set tail := (w₁.tokenHistory.drop (k + d)).take (w₁.nPast - (k + d)) with htail
  have htail' : tail = w₁.tokenHistory.drop (k + d) :=
    List.take_of_length_le (by rw [List.length_drop]; omega)
  refine Triple.bind (R := fun _ w => w = w₃) (Triple.modify fun w hw => by rw [hw]) fun _ => ?_
  have hactive : w₃.activeClIdx < spec.numCl := (hw₂.active h.active).2
  refine Triple.bind ((prefillLoop_appended _ tail 0 w₃ hactive le_rfl).conseq
    (fun _ h => h) (fun _ _ h => h) fun _ _ _ => trivial) fun _ => ?_
  refine Triple.bind (R := fun _ w => Appended spec tail w₃ w) (Triple.when (fun _ =>
      Triple.modify fun w hw => ⟨hw.nPast, hw.tokenHistory, hw.active, hw.fits, hw.trace⟩)
    fun _ _ hw => hw) fun _ => Triple.modify fun w hw => ⟨?_, ?_⟩
  · show w.nPast = _
    have hlen : tail.length = w₁.nPast - (k + d) := by
      rw [htail', List.length_drop, hsize]
    rw [hw.nPast, hlen]
    show k + (w₁.nPast - (k + d)) = w₁.nPast - d
    omega
  · show w.tokenHistory = _
    rw [hw.tokenHistory, htail']
    exact congrArg (· ++ _) htake

/-- If some amount makes room, `try_slide` evicts, keeps the prefix and makes room. -/
theorem trySlide_evicts {w : World τ ρ I} (h : Sized spec w) {cfg : GenerationConfig}
    (hslide : cfg.slidingWindow = true) {nFit : ℕ} (hfull : spec.maxCl < w.nPast + nFit)
    (hroom : ∃ d, MakesRoom w.nPast nFit spec.maxCl (nKeepOf spec cfg) d) (b : Bool) :
    ∃ d, MakesRoom w.nPast nFit spec.maxCl (nKeepOf spec cfg) d ∧
      trySlide spec env cfg nFit b w = slideWindowEvict spec env d (nKeepOf spec cfg) b w ∧
      ∀ w', trySlide spec env cfg nFit b w = (.ok (), w') →
        w'.nPast = w.nPast - d ∧ w'.nPast + nFit ≤ spec.maxCl ∧
          w'.tokenHistory = w.tokenHistory.take (nKeepOf spec cfg) ++
            w.tokenHistory.drop (nKeepOf spec cfg + d) := by
  have hfits := (slideDiscard_fits_iff hfull).mpr hroom
  set d := computeSlideDiscard w.nPast nFit spec.maxCl (nKeepOf spec cfg) with hd
  obtain ⟨hpos, hle, hfit⟩ := hfits
  have heq : trySlide spec env cfg nFit b w =
      slideWindowEvict spec env d (nKeepOf spec cfg) b w := by
    unfold trySlide
    rw [Prog.get_bind, Prog.when, ← hd, if_pos ⟨hslide, hpos.ne', hfit⟩]
  refine ⟨d, ⟨hpos, hle, hfit⟩, heq, fun w' hrun => ?_⟩
  rw [heq] at hrun
  obtain ⟨hn, hhistory⟩ := (slideWindowEvict_sized h hpos.ne' (by omega) b).ok rfl hrun
  exact ⟨hn, hn ▸ hfit, hhistory⟩

/-- If no amount makes room, `try_slide` changes nothing. -/
theorem trySlide_idle {w : World τ ρ I} {cfg : GenerationConfig} {nFit : ℕ}
    (hroom : ¬∃ d, MakesRoom w.nPast nFit spec.maxCl (nKeepOf spec cfg) d) (b : Bool) :
    trySlide spec env cfg nFit b w = (.ok (), w) := by
  unfold trySlide
  rw [Prog.get_bind, Prog.when, if_neg]
  · rfl
  · rintro ⟨-, hne, hfit⟩
    exact hroom ⟨_, Nat.pos_of_ne_zero hne, computeSlideDiscard_le _ _ _ _, hfit⟩

/-! ## Decoding -/

/-- The exception is not the context limit's. -/
def NotLimit (e : Err) : Prop := ∀ msg, e ≠ .contextLengthExceeded msg

theorem Failed.notLimit {e : Err} (h : Failed e) : NotLimit e := by
  obtain ⟨msg, rfl⟩ := h
  exact fun _ => nofun

section Limit

variable {cfg : GenerationConfig}

omit [Token τ] in
/-- Waiting for the pool moves nothing, and may block. -/
theorem waitPool_notLimit (w₀ : World τ ρ I) :
    Triple (fun w => w = w₀) (waitPool spec env : Run τ ρ I Unit) (fun _ w => Quietly spec w₀ w)
      fun e w => Quietly spec w₀ w ∧ NotLimit e :=
  ((waitPool_throws fun _ => nofun).triple (waitPool_quietly w₀)).pre
    fun w hw => by subst hw; exact Quietly.refl w

/-- Sampling moves nothing and never throws. -/
theorem sampleNextToken_notLimit (w₀ : World τ ρ I) (phase : Phase) (off : ℕ) :
    Triple (fun w => w = w₀) (sampleNextToken spec env phase off) (fun _ w => Quietly spec w₀ w)
      fun _ _ => False :=
  ((sampleNextToken_throws phase off).triple (sampleNextToken_quietly w₀ phase off)).conseq
    (fun w hw => by subst hw; exact Quietly.refl w) (fun _ _ h => h) fun _ _ h => h.2

/-- A step of the decode loop has room, if there is room for one token above the prefix. -/
theorem decodeStep_roomy (hslide : cfg.slidingWindow = true)
    (hkeep : nKeepOf spec cfg + 1 ≤ spec.maxCl) (tok : τ) :
    Triple (Counted spec) (decodeStep spec env cfg tok) (fun _ => Counted spec)
      fun e w => Counted spec w ∧ NotLimit e := by
  refine Triple.of_eq fun w₀ hc => ?_
  refine (Triple.and (decodeStep_follows w₀ hc cfg tok) (?_ : Triple (fun w => w = w₀)
    (decodeStep spec env cfg tok) (fun _ _ => True) fun e _ => NotLimit e)).conseq (fun _ h => ⟨h, h⟩)
    (fun _ _ h => h.1.counted) fun _ _ h => h
  refine Triple.bind ((waitPool_notLimit w₀).conseq (fun _ h => h) (fun _ _ h => h)
    fun _ _ h => h.2) fun _ => Triple.of_eq fun w₁ hw₁ => ?_
  have hc₁ := hw₁.counted hc
  have hroom : RoomFor spec cfg 1 w₁.nPast := by
    by_cases hfull : w₁.nPast + 1 ≤ spec.maxCl
    · exact Or.inl hfull
    · have hroom : ∃ d, MakesRoom w₁.nPast 1 spec.maxCl (nKeepOf spec cfg) d :=
        ⟨w₁.nPast - nKeepOf spec cfg, by omega, le_rfl, by omega⟩
      obtain ⟨hpos, -, hfit⟩ := (slideDiscard_fits_iff (not_le.mp hfull)).mpr hroom
      exact Or.inr ⟨hslide, hpos.ne', hfit⟩
  refine Triple.bind ((ensureRoom_fails hc₁ hroom true _).conseq (fun _ h => h) (fun _ _ h => h)
    fun _ _ h => h.notLimit) fun _ => ?_
  exact (decodeForward_throws (fun _ _ => nofun) tok).pre fun _ _ => trivial

/-- The decode loop never meets the context limit. -/
theorem decodeLoop_roomy (hslide : cfg.slidingWindow = true)
    (hkeep : nKeepOf spec cfg + 1 ≤ spec.maxCl) (callback : List Int32 → CallbackAnswer) (n : ℕ) :
    ∀ (next : τ) (out : List τ),
      Triple (Counted spec) (decodeLoop spec env cfg callback n next out)
        (fun _ => Counted spec) fun e w => Counted spec w ∧ NotLimit e := by
  have hlog : ∀ e : Event τ I, e.Quiet → Triple (Counted spec)
      (Prog.modify (World.log e) : Run τ ρ I Unit) (fun _ => Counted spec)
      fun e w => Counted spec w ∧ NotLimit e :=
    fun e he => Triple.modify fun w hw => (log_quietly he w).counted hw
  have hleave : ∀ (reason : StopReason) (out : List τ), Triple (Counted spec)
      (leaveLoop reason out : Run τ ρ I (List τ)) (fun _ => Counted spec)
      fun e w => Counted spec w ∧ NotLimit e :=
    fun reason out => Triple.bind (hlog _ trivial) fun _ => Triple.pure fun _ h => h
  induction n with
  | zero => exact fun next out => hleave _ _
  | succ n ih =>
    intro next out
    unfold decodeLoop
    refine Triple.ite (fun _ => hleave _ _) fun _ => Triple.bind (hlog _ trivial) fun _ => ?_
    cases callback ((out ++ [next]).map Token.id) with
    | stop => exact hleave _ _
    | throw => exact Triple.throw fun w hw => ⟨hw, fun _ h => by cases h⟩
    | «continue» =>
      refine Triple.bind (decodeStep_roomy hslide hkeep next) fun _ =>
        Triple.bind (R := fun _ => Counted spec) ?_ fun next' => ih next' _
      exact Triple.of_eq fun w₁ hc => (sampleNextToken_notLimit w₁ _ _).conseq (fun _ h => h)
        (fun _ w hw => hw.counted hc) fun _ _ h => h.elim

/-- The decode window never meets the context limit. -/
theorem decodeStage_roomy (hslide : cfg.slidingWindow = true)
    (hkeep : nKeepOf spec cfg + 1 ≤ spec.maxCl) (callback : List Int32 → CallbackAnswer)
    (first : τ) :
    Triple (Counted spec) (decodeStage spec env cfg callback first) (fun _ _ => True)
      fun e _ => NotLimit e := by
  refine Triple.bind (R := fun _ => Counted spec)
    (Triple.modify fun w hw => ⟨hw.size, hw.le, hw.active, hw.fits, hw.entries⟩) fun _ => ?_
  refine Triple.bind (Triple.onThrow (E := fun e _ => NotLimit e)
    (decodeLoop_roomy hslide hkeep callback _ first []) fun _ _ h => h.2) fun out => ?_
  refine Triple.bind (R := fun _ _ => True) (Triple.of_eq fun w₁ _ =>
    (waitPool_notLimit w₁).conseq (fun _ h => h) (fun _ _ _ => trivial) fun _ _ h => h.2) fun _ => ?_
  exact Triple.bind (R := fun _ _ => True) (Triple.modify fun _ _ => trivial) fun _ =>
    Triple.pure fun _ _ => trivial

end Limit

/-- **The eviction amount is sound and complete.** It never passes the anchored prefix; in want of
room, an attempt to evict makes room and keeps the prefix if any amount would make room, and changes
nothing else. With room for one token above the prefix, decoding never meets the context limit. -/
theorem slide_sound_complete (spec : LLMSpec) (env : Env τ ρ I) (cfg : GenerationConfig)
    (hslide : cfg.slidingWindow = true) :
    (∀ nPast nFit maxCl nKeep,
      computeSlideDiscard nPast nFit maxCl nKeep ≤ nPast - nKeep ∧
        (nPast ≤ nKeep → computeSlideDiscard nPast nFit maxCl nKeep = 0)) ∧
    (∀ (w : World τ ρ I) (nFit : ℕ) (b : Bool), Sized spec w → spec.maxCl < w.nPast + nFit →
      ((∃ d, MakesRoom w.nPast nFit spec.maxCl (nKeepOf spec cfg) d) →
        ∃ d, MakesRoom w.nPast nFit spec.maxCl (nKeepOf spec cfg) d ∧
          trySlide spec env cfg nFit b w = slideWindowEvict spec env d (nKeepOf spec cfg) b w ∧
          ∀ w', trySlide spec env cfg nFit b w = (.ok (), w') →
            w'.nPast = w.nPast - d ∧ w'.nPast + nFit ≤ spec.maxCl ∧
              w'.tokenHistory = w.tokenHistory.take (nKeepOf spec cfg) ++
                w.tokenHistory.drop (nKeepOf spec cfg + d)) ∧
      ((¬∃ d, MakesRoom w.nPast nFit spec.maxCl (nKeepOf spec cfg) d) →
        trySlide spec env cfg nFit b w = (.ok (), w))) ∧
    (nKeepOf spec cfg + 1 ≤ spec.maxCl → ∀ (w : World τ ρ I) (prompt : List τ)
      (callback : List Int32 → CallbackAnswer) (first : τ) (w₁ : World τ ρ I),
      Reachable spec env w → prefillStage spec env prompt cfg w = (.ok first, w₁) →
        ∀ msg, (decodeStage spec env cfg callback first w₁).1 ≠
          .error (.contextLengthExceeded msg)) := by
  refine ⟨fun nPast nFit maxCl nKeep => ⟨computeSlideDiscard_le _ _ _ _,
    computeSlideDiscard_zero⟩, fun w nFit b h hfull => ⟨fun hroom => ?_, fun hroom => ?_⟩, ?_⟩
  · exact trySlide_evicts h hslide hfull hroom b
  · exact trySlide_idle hroom b
  · intro hkeep w prompt callback first w₁ hw hrun msg heq
    have hc := ((prefillStage_follows w hw.counted prompt cfg).ok rfl hrun).counted
    exact (decodeStage_roomy hslide hkeep callback first).error hc (eq_of_result heq) msg rfl

/-- A sliding window that keeps two tokens. -/
def keepTwoCfg : GenerationConfig :=
  { tinyCfg 4 with slidingWindow := true, slidingWindowNKeep := 2 }

/-- Eight tokens at a context length of 8, and one more to fit. -/
theorem slide_sound_complete_full :
    let w := { tinyWorld (tinySpec [4, 8] 2 1) with
      nPast := 8, activeClIdx := 1, tokenHistory := List.replicate 8 0 }
    ∃ d, MakesRoom 8 1 8 2 d ∧
      trySlide (tinySpec [4, 8] 2 1) (tinyEnv 0 0) keepTwoCfg 1 true w =
        slideWindowEvict (tinySpec [4, 8] 2 1) (tinyEnv 0 0) d 2 true w := by
  intro w
  have hslide := slide_sound_complete (tinySpec [4, 8] 2 1) (tinyEnv 0 0) keepTwoCfg rfl
  obtain ⟨d, hroom, heq, -⟩ := (hslide.2.1 w 1 true ⟨rfl, by decide⟩ (by decide)).1
    ⟨2, by decide, by decide, by decide⟩
  exact ⟨d, hroom, heq⟩

end Geniex
