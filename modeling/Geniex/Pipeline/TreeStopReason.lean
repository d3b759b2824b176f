import Geniex.Pipeline.StopReason

/-!
# The stop reason of the tree decoder

The tree decoder leaves its loop in five ways, and `generateTokens` sees only how many tokens it has
returned and whether the callback stopped it.

* `SSDExit`: the ways a call that returns ends, with what it has emitted.
* `ssd_tellsTruth_iff`: when the inferred reason is the true one.
* `stopReason_iff`: both decoders.
-/

namespace Geniex

open Prog

variable {ρ I : Type} {spec : LLMSpec} {env : Env Int32 ρ I} {ssd : SSDConfig}
  {cfg : GenerationConfig} {callback : List Int32 → CallbackAnswer} {prompt : List Int32}
  {w₀ w w' : World Int32 ρ I}

/-! ## Speaking a path -/

/-- How the loop over an accepted path is left. -/
inductive PathEnd
  | eos
  | stop
  | throw
  | spoken
  deriving DecidableEq

/-- What has been emitted when a path has been spoken, and how the loop over it was left. -/
def speakEnd (spec : LLMSpec) (callback : List Int32 → CallbackAnswer) :
    List Int32 → List Int32 → List Int32 × PathEnd
  | [], out => (out, .spoken)
  | t :: rest, out =>
    if isEos spec t = true then (out, .eos)
    else
      match callback (out ++ [t]) with
      | .stop => (out ++ [t], .stop)
      | .throw => (out ++ [t], .throw)
      | .continue => speakEnd spec callback rest (out ++ [t])

/-- The result of the loop over a path. -/
def PathEnd.result (out : List Int32) : PathEnd → Except Err (List Int32 × Bool)
  | eos | stop => .ok (out, true)
  | throw => .error .callbackThrew
  | spoken => .ok (out, false)

/-- The sampled tokens that are not emitted. -/
def PathEnd.Unsaid (spec : LLMSpec) : PathEnd → List Int32 → Prop
  | eos, unsaid => ∃ t, unsaid = [t] ∧ isEos spec t = true
  | _, unsaid => unsaid = []

/-- The answers that the emitted tokens have had. -/
def PathEnd.Answered (callback : List Int32 → CallbackAnswer) (out : List Int32) : PathEnd → Prop
  | stop => out ≠ [] ∧ callback out = .stop
  | throw => True
  | eos | spoken => ∀ said, said ≠ [] → said <+: out → callback said = .continue

/-- What a call has emitted and sampled since `w₀`. -/
def Spoke (w₀ : World Int32 ρ I) (emitted sampled : List Int32) : World Int32 ρ I → Prop :=
  Since w₀ fun es => emittedTokens es = emitted ∧ sampledTokens es = sampled

theorem spoke_work (w₀ : World Int32 ρ I) (emitted sampled : List Int32) :
    WorkInvariant (Spoke w₀ emitted sampled) :=
  Since.work fun e es he h => by
    cases e with
    | appended | sampler | sampled | accepted | emitted | stopped => exact he.elim
    | _ => exact h

theorem Spoke.sample {emitted sampled : List Int32} (h : Spoke w₀ emitted sampled w) (t : Int32) :
    Spoke w₀ emitted (sampled ++ [t]) (w.log (.sampled t)) :=
  h.log fun es hes => ⟨hes.1, by rw [sampledTokens, hes.2]⟩

theorem Spoke.emit {emitted sampled : List Int32} (h : Spoke w₀ emitted sampled w) (t : Int32) :
    Spoke w₀ (emitted ++ [t]) sampled (w.log (.emitted t)) :=
  h.log fun es hes => ⟨by rw [emittedTokens, hes.1], hes.2⟩

/-- Speaking a path. -/
theorem speak_run (spec : LLMSpec) (path : List Int32) : ∀ {out : List Int32} {w : World Int32 ρ I},
    Spoke w₀ out out w → (∀ said, said ≠ [] → said <+: out → callback said = .continue) →
    ∃ w' unsaid, SSDConfig.speak spec callback path out w =
        ((speakEnd spec callback path out).2.result (speakEnd spec callback path out).1, w') ∧
      Spoke w₀ (speakEnd spec callback path out).1
        ((speakEnd spec callback path out).1 ++ unsaid) w' ∧
      (speakEnd spec callback path out).2.Unsaid spec unsaid ∧
      (speakEnd spec callback path out).2.Answered callback (speakEnd spec callback path out).1 := by
  induction path with
  | nil => exact fun {out w} h hcont => ⟨w, [], rfl, by rwa [List.append_nil], rfl, hcont⟩
  | cons t rest ih =>
    intro out w h hcont
    unfold SSDConfig.speak speakEnd
    rw [modify_bind]
    by_cases heos : isEos spec t = true
    · simp only [if_pos heos]
      exact ⟨_, [t], rfl, h.sample t, ⟨t, rfl, heos⟩, hcont⟩
    · simp only [if_neg heos]
      rw [modify_bind]
      have hnext : Spoke w₀ (out ++ [t]) (out ++ [t]) ((w.log (.sampled t)).log (.emitted t)) :=
        (h.sample t).emit t
      cases hanswer : callback (out ++ [t]) with
      | stop => exact ⟨_, [], rfl, by rwa [List.append_nil], rfl, by simp, hanswer⟩
      | throw => exact ⟨_, [], rfl, by rwa [List.append_nil], rfl, trivial⟩
      | «continue» =>
        refine ih hnext fun said hne hpre => ?_
        rcases List.prefix_concat_iff.mp hpre with rfl | hpre
        · exact hanswer
        · exact hcont said hne hpre

/-! ## The heads of the loop -/

theorem treeStep_spoke (emitted sampled tree : List Int32) :
    Stable (Spoke w₀ emitted sampled) (ssd.treeStep spec env tree) := by
  have hwork := spoke_work w₀ emitted sampled
  refine Stable.bind (hwork.treePass _ _) fun _ => Stable.get fun w₁ => ?_
  refine Stable.bind (Stable.modify fun w hw => ?_) fun _ =>
    Stable.bind (Stable.modify fun w hw => hwork.commit _ hw) fun _ =>
    Stable.bind (Stable.modify fun w hw => hwork.plain w _ rfl rfl hw) fun _ => Stable.pure _
  exact hw.log fun es hes => hes

theorem prefillStage_spoke {first : Int32}
    (h : ssd.prefillStage spec env prompt w₀ = (.ok first, w)) : Spoke w₀ [] [first] w := by
  have hsince := (prefillStage_unspoken (fun _ => .continue) prompt).ok rfl h
  refine hsince.mono ?_
  rintro _ ⟨es, rfl, hes⟩
  exact ⟨hes.emitted, by rw [sampledTokens, hes.sampled, List.nil_append]⟩

/-- At a head all that was sampled has been emitted, and answered with continue. -/
theorem LoopHead.spoke {tree said : List Int32} {n : ℕ}
    (h : LoopHead spec env ssd prompt cfg callback w₀ w tree said n) :
    Spoke w₀ said said w ∧ ∀ pre, pre ≠ [] → pre <+: said → callback pre = .continue := by
  induction h with
  | @first w₁ w₂ first hprefill heos hanswer hinit =>
    refine ⟨((spoke_work w₀ [first] [first]).initialStep first).ok
      ((prefillStage_spoke hprefill).emit first) hinit, fun pre hne hpre => ?_⟩
    rcases List.prefix_concat_iff.mp (show pre <+: [] ++ [first] from hpre) with rfl | hpre
    · exact hanswer
    · exact absurd (List.prefix_nil.mp hpre) hne
  | @next w w₁ w₂ tree said said' n accepted h hroom hstep hspeak hlimit ih =>
    obtain ⟨w₃, unsaid, hrun, hspoke, hunsaid, hanswered⟩ :=
      speak_run spec accepted.1 ((treeStep_spoke said said tree).ok ih.1 hstep) ih.2
    rw [hspeak] at hrun
    generalize speakEnd spec callback accepted.1 said = ending at hrun hspoke hunsaid hanswered
    obtain ⟨out, e⟩ := ending
    cases e with
    | spoken =>
      cases hrun
      obtain rfl := hunsaid
      rw [List.append_nil] at hspoke
      exact ⟨hspoke, hanswered⟩
    | eos | stop | throw => cases hrun

/-- A call whose loop has a head ends like the loop from there on. -/
theorem LoopHead.body {tree said : List Int32} {n : ℕ}
    (h : LoopHead spec env ssd prompt cfg callback w₀ w tree said n) :
    ssd.generateBody spec env prompt cfg callback w₀ =
      ssd.decodeLoop spec env cfg.maxTokens callback n tree said w := by
  induction h with
  | @first w₁ w₂ first hprefill heos hanswer hinit =>
    unfold SSDConfig.generateBody SSDConfig.decodeStage
    rw [bind_ok hprefill, if_neg (by rw [heos]; decide), modify_bind, hanswer]
    dsimp only
    rw [bind_ok hinit, get_bind]
  | @next w w₁ w₂ tree said said' n accepted h hroom hstep hspeak hlimit ih =>
    rw [ih, SSDConfig.decodeLoop, get_bind, if_neg (not_lt.mpr hroom), bind_ok hstep,
      bind_ok hspeak]
    dsimp only
    rw [if_neg (by simpa using hlimit), get_bind]

/-! ## The end of a call -/

/-- The ways a call that returns is ended, up to the exit restride: what it has emitted, and the end
of the path that it spoke last. -/
inductive SSDExit (spec : LLMSpec) (env : Env Int32 ρ I) (ssd : SSDConfig) (prompt : List Int32)
    (cfg : GenerationConfig) (callback : List Int32 → CallbackAnswer) (w₀ : World Int32 ρ I) :
    List Int32 → PathEnd → World Int32 ρ I → Prop
  | firstEos {first : Int32} {w : World Int32 ρ I}
      (hprefill : ssd.prefillStage spec env prompt w₀ = (.ok first, w))
      (heos : isEos spec first = true) : SSDExit spec env ssd prompt cfg callback w₀ [] .eos w
  | firstStop {first : Int32} {w : World Int32 ρ I}
      (hprefill : ssd.prefillStage spec env prompt w₀ = (.ok first, w))
      (heos : isEos spec first = false) (hanswer : callback [first] = .stop) :
      SSDExit spec env ssd prompt cfg callback w₀ [first] .stop (w.log (.emitted first))
  | left {w : World Int32 ρ I} {tree said : List Int32} {n : ℕ}
      (h : LoopHead spec env ssd prompt cfg callback w₀ w tree said n)
      (hleft : n = 0 ∨ spec.cl w.activeClIdx < w.nPast + ssd.totalSsdTokens spec) :
      SSDExit spec env ssd prompt cfg callback w₀ said .spoken w
  | path {w w₁ w₂ : World Int32 ρ I} {tree said out : List Int32} {n : ℕ} {e : PathEnd}
      {accepted : List Int32 × List ℕ} {stop : Bool}
      (h : LoopHead spec env ssd prompt cfg callback w₀ w tree said (n + 1))
      (hroom : w.nPast + ssd.totalSsdTokens spec ≤ spec.cl w.activeClIdx)
      (hstep : ssd.treeStep spec env tree w = (.ok accepted, w₁))
      (hend : speakEnd spec callback accepted.1 said = (out, e))
      (hspeak : SSDConfig.speak spec callback accepted.1 said w₁ = (.ok (out, stop), w₂))
      (hleave : stop = true ∨ cfg.maxTokens ≤ Int32.ofNat out.length) :
      SSDExit spec env ssd prompt cfg callback w₀ out e w₂

namespace SSDExit

variable {out : List Int32} {e : PathEnd}

/-- The call returns what it has emitted. -/
theorem body (h : SSDExit spec env ssd prompt cfg callback w₀ out e w) :
    ssd.generateBody spec env prompt cfg callback w₀ = (.ok out, w) := by
  cases h with
  | firstEos hprefill heos =>
    unfold SSDConfig.generateBody
    rw [bind_ok hprefill, if_pos heos]
    rfl
  | firstStop hprefill heos hanswer =>
    unfold SSDConfig.generateBody
    rw [bind_ok hprefill, if_neg (by rw [heos]; decide), modify_bind, hanswer]
    rfl
  | @left w tree said n h hleft =>
    rw [h.body]
    rcases hleft with rfl | hfull
    · rfl
    · cases n with
      | zero => rfl
      | succ n =>
        rw [SSDConfig.decodeLoop, get_bind, if_pos hfull]
        rfl
  | path h hroom hstep hend hspeak hleave =>
    rw [h.body, SSDConfig.decodeLoop, get_bind, if_neg (not_lt.mpr hroom), bind_ok hstep,
      bind_ok hspeak]
    dsimp only
    rw [if_pos hleave]
    rfl

/-- What has been said when it ends. -/
theorem spoke (h : SSDExit spec env ssd prompt cfg callback w₀ out e w) :
    ∃ unsaid, Spoke w₀ out (out ++ unsaid) w ∧ e.Unsaid spec unsaid ∧ e.Answered callback out ∧
      e ≠ .throw := by
  cases h with
  | @firstEos first w hprefill heos =>
    exact ⟨[first], prefillStage_spoke hprefill, ⟨first, rfl, heos⟩,
      fun said hne hpre => absurd (List.prefix_nil.mp hpre) hne, nofun⟩
  | @firstStop first w hprefill heos hanswer =>
    exact ⟨[], (prefillStage_spoke hprefill).emit first, rfl, ⟨by simp, hanswer⟩, nofun⟩
  | left h hleft =>
    refine ⟨[], ?_, rfl, h.spoke.2, nofun⟩
    rw [List.append_nil]
    exact h.spoke.1
  | @path w w₁ w₂ tree said out n e accepted stop h hroom hstep hend hspeak hleave =>
    obtain ⟨w₃, unsaid, hrun, hspoke, hunsaid, hanswered⟩ :=
      speak_run spec accepted.1 ((treeStep_spoke said said tree).ok h.spoke.1 hstep)
        h.spoke.2
    rw [hend] at hrun hspoke hunsaid hanswered
    rw [hspeak] at hrun
    refine ⟨unsaid, ?_, hunsaid, hanswered, ?_⟩
    · cases e <;> cases hrun <;> exact hspoke
    · rintro rfl
      cases hrun

end SSDExit

/-- A loop that returns leaves at a head or with a path. -/
theorem ssdLoop_exit {out : List Int32} (n : ℕ) : ∀ {tree said : List Int32} {w : World Int32 ρ I},
    LoopHead spec env ssd prompt cfg callback w₀ w tree said n →
    ssd.decodeLoop spec env cfg.maxTokens callback n tree said w = (.ok out, w') →
    ∃ e, SSDExit spec env ssd prompt cfg callback w₀ out e w' := by
  induction n with
  | zero =>
    intro tree said w h hrun
    cases hrun
    exact ⟨_, SSDExit.left h (Or.inl rfl)⟩
  | succ n ih =>
    intro tree said w h hrun
    rw [SSDConfig.decodeLoop, get_bind] at hrun
    by_cases hfull : w.nPast + ssd.totalSsdTokens spec > spec.cl w.activeClIdx
    · rw [if_pos hfull] at hrun
      cases hrun
      exact ⟨_, SSDExit.left h (Or.inr hfull)⟩
    · rw [if_neg hfull] at hrun
      obtain ⟨accepted, w₁, hstep, hrun⟩ := bind_eq_ok hrun
      obtain ⟨⟨said', stop⟩, w₂, hspeak, hrun⟩ := bind_eq_ok hrun
      dsimp only at hrun
      split_ifs at hrun with hleave
      · cases hrun
        obtain ⟨w₃, unsaid, hsaid, -, -, -⟩ :=
          speak_run spec accepted.1 ((treeStep_spoke said said tree).ok h.spoke.1 hstep)
            h.spoke.2
        rcases hend : speakEnd spec callback accepted.1 said with ⟨o, e⟩
        rw [hspeak, hend] at hsaid
        obtain rfl : out = o := by cases e <;> cases hsaid <;> rfl
        exact ⟨e, SSDExit.path h (not_lt.mp hfull) hstep hend hspeak hleave⟩
      · rw [get_bind] at hrun
        rw [not_or, Bool.not_eq_true] at hleave
        obtain ⟨rfl, hlimit⟩ := hleave
        exact ih (LoopHead.next h (not_lt.mp hfull) hstep hspeak hlimit) hrun

/-- Every call that returns is ended in one of these ways. -/
theorem ssd_exit {out : List Int32}
    (hrun : ssd.generateBody spec env prompt cfg callback w₀ = (.ok out, w')) :
    ∃ e, SSDExit spec env ssd prompt cfg callback w₀ out e w' := by
  obtain ⟨first, w₁, hprefill, ⟨heos, rfl, rfl⟩ | ⟨heos, ⟨hanswer, rfl, rfl⟩ | ⟨hanswer, hstage⟩⟩⟩ :=
    generateBody_parts hrun
  · exact ⟨_, SSDExit.firstEos hprefill heos⟩
  · exact ⟨_, SSDExit.firstStop hprefill heos hanswer⟩
  · obtain ⟨_, w₂, hinit, hloop⟩ := bind_eq_ok hstage
    rw [get_bind] at hloop
    exact ssdLoop_exit _ (LoopHead.first hprefill heos hanswer hinit) hloop

/-! ## The reason -/

/-- The tree decoder is not ended at the wrong place: an EOS is never the first token of a call that
may return none; where the loop is left for lack of steps or of room, exactly the limit has been
emitted; and a path that is not stopped by the callback has its EOS before the limit, or ends at it if
the loop is left there. -/
structure SSDReasonClear (spec : LLMSpec) (env : Env Int32 ρ I) (ssd : SSDConfig)
    (prompt : List Int32) (cfg : GenerationConfig) (callback : List Int32 → CallbackAnswer)
    (w₀ : World Int32 ρ I) : Prop where
  first : ∀ first w, ssd.prefillStage spec env prompt w₀ = (.ok first, w) →
    isEos spec first = true → 0 < cfg.maxTokens.toInt
  left : ∀ w tree said n, LoopHead spec env ssd prompt cfg callback w₀ w tree said n →
    (n = 0 ∨ spec.cl w.activeClIdx < w.nPast + ssd.totalSsdTokens spec) →
    (said.length : ℤ) = cfg.maxTokens.toInt
  path : ∀ w w₁ tree said n accepted out e,
    LoopHead spec env ssd prompt cfg callback w₀ w tree said (n + 1) →
    w.nPast + ssd.totalSsdTokens spec ≤ spec.cl w.activeClIdx →
    ssd.treeStep spec env tree w = (.ok accepted, w₁) →
    speakEnd spec callback accepted.1 said = (out, e) →
    (e = .eos → (out.length : ℤ) < cfg.maxTokens.toInt) ∧
      (e = .spoken → cfg.maxTokens ≤ Int32.ofNat out.length →
        (out.length : ℤ) = cfg.maxTokens.toInt)

section Tree

variable {s : Stream} {out : List Int32} {e : PathEnd}

/-- When the inferred reason is true, by how a call is ended. -/
def PathEnd.Clear (maxTokens : Int32) (out : List Int32) : PathEnd → Prop
  | eos => (out.length : ℤ) < maxTokens.toInt
  | spoken => (out.length : ℤ) = maxTokens.toInt
  | stop | throw => True

/-- The verdict on a call, by how it is ended. -/
theorem SSDExit.verdict (full : Prop)
    (h : SSDExit spec env ssd prompt (effectiveCfg cfg) s.onEachToken w₀ out e w) :
    ∃ es, w.trace = es ++ w₀.trace ∧ emittedTokens es = out ∧
      (TrueReason (AskedToStop s es) (EosNext (.ssd ssd) spec cfg es)
        (out.length = cfg.maxTokens.toInt) full (inferredReason s cfg.maxTokens out) ↔
        e.Clear cfg.maxTokens out) := by
  obtain ⟨unsaid, ⟨es, ht, hemitted, hsampled⟩, hunsaid, hanswered, hne⟩ := h.spoke
  refine ⟨es, ht, hemitted, ?_⟩
  have hall := inferredReason_true s cfg.maxTokens (EosNext (.ssd ssd) spec cfg es) full hemitted
  cases e with
  | eos =>
    obtain ⟨t, rfl, heos⟩ := hunsaid
    have hno : ¬AskedToStop s es := not_asked fun said hne hpre =>
      hanswered said hne (hemitted ▸ hpre)
    exact hall.2.1 hno ⟨trivial, t, by rw [hsampled, hemitted], heos⟩
  | spoken =>
    obtain rfl := hunsaid
    have hno : ¬AskedToStop s es := not_asked fun said hne hpre =>
      hanswered said hne (hemitted ▸ hpre)
    refine hall.2.2 hno ?_
    rintro ⟨-, t, ht, -⟩
    rw [hsampled, hemitted] at ht
    simpa using congrArg List.length ht
  | stop =>
    exact iff_of_true (hall.1 ⟨out, hanswered.1, by rw [hemitted], hanswered.2⟩) trivial
  | throw => exact absurd rfl hne

/-- The tree decoder is not ended at the wrong place if and only if each of its ends is clear. -/
theorem ssdReasonClear_iff :
    SSDReasonClear spec env ssd prompt cfg callback w₀ ↔
      ∀ out e w, SSDExit spec env ssd prompt cfg callback w₀ out e w →
        e.Clear cfg.maxTokens out := by
  constructor
  · intro h out e w hexit
    cases hexit with
    | firstEos hprefill heos =>
      have := h.first _ _ hprefill heos
      exact_mod_cast this
    | firstStop hprefill heos hanswer => trivial
    | left hhead hleft => exact h.left _ _ _ _ hhead hleft
    | @path w w₁ w₂ tree said out n e accepted stop hhead hroom hstep hend hspeak hleave =>
      have hpath := h.path _ _ _ _ _ _ _ _ hhead hroom hstep hend
      cases e with
      | eos => exact hpath.1 rfl
      | spoken =>
        refine hpath.2 rfl (hleave.resolve_left ?_)
        rintro rfl
        obtain ⟨w₃, unsaid, hsaid, -, -, -⟩ :=
          speak_run spec accepted.1
            ((treeStep_spoke said said tree).ok hhead.spoke.1 hstep) hhead.spoke.2
        rw [hspeak, hend] at hsaid
        cases hsaid
      | stop | throw => trivial
  · intro h
    refine ⟨fun first w hprefill heos => ?_, fun w tree said n hhead hleft => ?_, ?_⟩
    · have := h _ _ _ (SSDExit.firstEos hprefill heos)
      exact_mod_cast this
    · exact h _ _ _ (SSDExit.left hhead hleft)
    · intro w w₁ tree said n accepted out e hhead hroom hstep hend
      obtain ⟨w₂, unsaid, hsaid, -, -, -⟩ :=
        speak_run spec accepted.1 ((treeStep_spoke said said tree).ok hhead.spoke.1 hstep)
          hhead.spoke.2
      rw [hend] at hsaid
      refine ⟨?_, ?_⟩
      · rintro rfl
        exact h _ _ _ (SSDExit.path hhead hroom hstep hend hsaid (Or.inl rfl))
      · rintro rfl hlimit
        exact h _ _ _ (SSDExit.path hhead hroom hstep hend hsaid (Or.inr hlimit))

section Exceptions

variable {T : Err → Prop}

theorem ssdShard_throws (hx : ∀ msg, T (.executeFailed msg)) (phase : Phase) (clIdx : ℕ)
    (ctx : RunContext Int32) (mask : ℕ → ℤ) (positions : List Int32) (msg : String) (s : ℕ) :
    Throws T (SSDConfig.runShard spec env phase clIdx ctx mask positions msg s) :=
  Throws.bind (Throws.when fun _ => Throws.throw (hx _)) fun _ =>
    Throws.get fun _ => execGraph_throws hx _ _ _ _ _ _

theorem treePass_throws (hx : ∀ msg, T (.executeFailed msg)) (tokens : List Int32) (off : ℕ) :
    Throws T (ssd.runShardsWithTreeMask spec env tokens off) :=
  Throws.get fun _ => Throws.bind (Throws.modify _) fun _ => Throws.forRange (fun _ =>
    Throws.bind (ssdShard_throws hx _ _ _ _ _ _ _) fun _ =>
      Throws.when fun _ => Throws.modify _) _

theorem ssdPrefill_throws (hx : ∀ msg, T (.executeFailed msg)) (fuel : ℕ) (tokens : List Int32)
    (last : ℕ) : Throws T (ssd.prefillLoop spec env fuel tokens last) := by
  induction fuel generalizing tokens last with
  | zero => exact Throws.pure _
  | succ fuel ih =>
    refine Throws.ite (fun _ => Throws.pure _) fun _ => Throws.bind ?_ fun _ => ih _ _
    exact Throws.get fun _ => Throws.bind (Throws.modify _) fun _ =>
      Throws.bind (Throws.forRange (fun _ =>
        Throws.bind (ssdShard_throws hx _ _ _ _ _ _ _) fun _ =>
          Throws.bind (Throws.modify _) fun _ => Throws.when fun _ => Throws.modify _) _) fun _ =>
      Throws.modify _

theorem speak_throws (hc : T .callbackThrew) (path : List Int32) : ∀ out : List Int32,
    Throws T (SSDConfig.speak spec callback path out : Run Int32 ρ I (List Int32 × Bool)) := by
  induction path with
  | nil => exact fun _ => Throws.pure _
  | cons t rest ih =>
    refine fun out => Throws.bind (Throws.modify _) fun _ => Throws.ite (fun _ => Throws.pure _)
      fun _ => Throws.bind (Throws.modify _) fun _ => ?_
    cases callback (out ++ [t]) with
    | stop => exact Throws.pure _
    | throw => exact Throws.throw hc
    | «continue» => exact ih _

theorem ssdLoop_throws (hx : ∀ msg, T (.executeFailed msg)) (hc : T .callbackThrew)
    (maxTokens : Int32) (n : ℕ) : ∀ tree out : List Int32,
    Throws T (ssd.decodeLoop spec env maxTokens callback n tree out) := by
  induction n with
  | zero => exact fun _ _ => Throws.pure _
  | succ n ih =>
    refine fun tree out => Throws.get fun _ => Throws.ite (fun _ => Throws.pure _) fun _ =>
      Throws.bind ?_ fun _ => Throws.bind (speak_throws hc _ _) fun _ =>
      Throws.ite (fun _ => Throws.pure _) fun _ => Throws.get fun _ => ih _ _
    exact Throws.bind (treePass_throws hx _ _) fun _ => Throws.get fun _ =>
      Throws.bind (Throws.modify _) fun _ => Throws.bind (Throws.modify _) fun _ =>
      Throws.bind (Throws.modify _) fun _ => Throws.pure _

/-- The tree decoder throws where an execution fails or the callback throws. -/
theorem ssd_generate_throws (hx : ∀ msg, T (.executeFailed msg)) (hc : T .callbackThrew) :
    Throws T (ssd.generate spec env prompt cfg callback) := by
  refine Throws.bind (Throws.bind ?_ fun first => Throws.ite (fun _ => Throws.pure _) fun _ =>
    Throws.bind (Throws.modify _) fun _ => ?_) fun _ =>
    Throws.bind (Throws.modify _) fun _ => Throws.pure _
  · exact Throws.get fun _ => Throws.bind (Throws.modify _) fun _ =>
      Throws.bind (ssdPrefill_throws hx _ _ _) fun _ => Throws.bind (Throws.modify _) fun _ =>
      sampleNextToken_throws _ _
  · cases callback [first] with
    | stop => exact Throws.pure _
    | throw => exact Throws.throw hc
    | «continue» =>
      refine Throws.bind (Throws.bind (treePass_throws hx _ _) fun _ =>
        Throws.bind (Throws.modify _) fun _ => Throws.modify _) fun _ => Throws.get fun _ =>
        ssdLoop_throws hx hc _ _ _ _

end Exceptions

/-- A call of the tree decoder through the pipeline tells the truth if and only if it is not ended at
the wrong place. -/
theorem ssd_tellsTruth_iff {result : GenerateResult}
    (hrun : generateTokens (.ssd ssd) spec env s prompt cfg w₀ = (.ok result, w')) :
    ∃ es, w'.trace = es ++ w₀.trace ∧
      (TellsTruth (.ssd ssd) spec env s prompt cfg w₀ es result ↔
        SSDReasonClear spec env ssd prompt (effectiveCfg cfg) s.onEachToken w₀) := by
  unfold generateTokens at hrun
  dsimp only [ModelClass.generate] at hrun
  rcases hgen : ssd.generate spec env prompt (effectiveCfg cfg) s.onEachToken w₀ with ⟨e | out, w⟩
  · rw [hgen] at hrun
    cases e with
    | contextLengthExceeded msg =>
      exact absurd rfl ((ssd_generate_throws (T := fun e => e ≠ .contextLengthExceeded msg)
        (fun _ => nofun) nofun).error hgen)
    | _ => cases hrun
  · rw [hgen] at hrun
    cases hrun
    obtain ⟨out', v, hbody, hrest⟩ := bind_eq_ok hgen
    cases hrest
    obtain ⟨e, hexit⟩ := ssd_exit hbody
    obtain ⟨es, ht, rfl, hverdict⟩ := hexit.verdict (ContextFull (.ssd ssd) spec env prompt
      (effectiveCfg cfg) s.onEachToken w₀ out)
    refine ⟨es, ht, Iff.trans ?_ (hverdict.trans ?_)⟩
    · have hnew : newEvents w₀ (restrideActive spec .decode .prefill v.nPast v) = es :=
        newEvents_eq ht
      rw [hnew]
      exact ⟨fun htells => htells.reason, fun hreason => ⟨hreason, rfl⟩⟩
    · refine Iff.trans ?_ ssdReasonClear_iff.symm
      refine ⟨fun hclear out e' w'' hexit' => ?_, fun hclear => hclear _ _ _ hexit⟩
      obtain ⟨es', ht', hemitted, hverdict'⟩ := hexit'.verdict (ContextFull (.ssd ssd) spec env
        prompt (effectiveCfg cfg) s.onEachToken w₀ (emittedTokens es))
      have hsame := hexit'.body.symm.trans hbody
      cases hsame
      obtain rfl := List.append_cancel_right (ht.symm.trans ht')
      exact hverdict'.mp (hverdict.mpr hclear)

end Tree

/-- **The reported stop reason is the true one**, and the count is that of the tokens streamed, plus
an EOS, if and only if the model is not ended at the wrong place. -/
theorem stopReason_iff (spec : LLMSpec) (env : Env Int32 ρ I) (s : Stream) (prompt : List Int32)
    (cfg : GenerationConfig) (w₀ w' : World Int32 ρ I) (result : GenerateResult) :
    (Reachable spec env w₀ → generateTokens .llm spec env s prompt cfg w₀ = (.ok result, w') →
      ∃ es, w'.trace = es ++ w₀.trace ∧
        (TellsTruth .llm spec env s prompt cfg w₀ es result ↔
          LLMReasonClear spec env prompt (effectiveCfg cfg) s.onEachToken w₀)) ∧
    ∀ ssd : SSDConfig, generateTokens (.ssd ssd) spec env s prompt cfg w₀ = (.ok result, w') →
      ∃ es, w'.trace = es ++ w₀.trace ∧
        (TellsTruth (.ssd ssd) spec env s prompt cfg w₀ es result ↔
          SSDReasonClear spec env ssd prompt (effectiveCfg cfg) s.onEachToken w₀) :=
  ⟨llm_tellsTruth_iff, fun _ => ssd_tellsTruth_iff⟩

/-- A tokenizer that makes a letter of every token, and no `on_token`. -/
def tinyStream : Stream := ⟨fun _ => "a", none⟩

/-- A call of the small tree decoder through the pipeline. -/
def tinyTreeCall (spec : LLMSpec) (n : Int32) : Except Err GenerateResult × World Int32 Unit Unit :=
  generateTokens (.ssd tinySSD) spec (tinyEnv 0 0) tinyStream [0, 0] (tinyCfg n)
    (tinySSDWorld spec)

/-- A call of the small plain decoder through the pipeline. -/
def tinyPlainCall (spec : LLMSpec) (n : Int32) : Except Err GenerateResult × World Int32 Unit Unit :=
  generateTokens .llm spec (tinyEnv 0 0) tinyStream [0, 0] (tinyCfg n) (tinyWorld spec)

/-- Both decoders at a limit of three tokens. -/
theorem stopReason_iff_tiny :
    (∃ es, (tinyPlainCall (tinySpec [16] 4 4) 3).2.trace = es ++ (tinyWorld (tinySpec [16] 4 4)).trace ∧
      (TellsTruth .llm (tinySpec [16] 4 4) (tinyEnv 0 0) tinyStream [0, 0] (tinyCfg 3)
          (tinyWorld (tinySpec [16] 4 4)) es ⟨"aaa", 2, 3, .length⟩ ↔
        LLMReasonClear (tinySpec [16] 4 4) (tinyEnv 0 0) [0, 0] (effectiveCfg (tinyCfg 3))
          tinyStream.onEachToken (tinyWorld (tinySpec [16] 4 4)))) ∧
    ∃ es, (tinyTreeCall (tinySpec [16] 4 4) 3).2.trace =
        es ++ (tinySSDWorld (tinySpec [16] 4 4)).trace ∧
      (TellsTruth (.ssd tinySSD) (tinySpec [16] 4 4) (tinyEnv 0 0) tinyStream [0, 0] (tinyCfg 3)
          (tinySSDWorld (tinySpec [16] 4 4)) es ⟨"aaa", 2, 3, .length⟩ ↔
        SSDReasonClear (tinySpec [16] 4 4) (tinyEnv 0 0) tinySSD [0, 0] (effectiveCfg (tinyCfg 3))
          tinyStream.onEachToken (tinySSDWorld (tinySpec [16] 4 4))) := by
  have hplain : (tinyPlainCall (tinySpec [16] 4 4) 3).1 = .ok ⟨"aaa", 2, 3, .length⟩ := by
    decide +kernel
  have htree : (tinyTreeCall (tinySpec [16] 4 4) 3).1 = .ok ⟨"aaa", 2, 3, .length⟩ := by
    decide +kernel
  exact ⟨(stopReason_iff _ _ _ _ _ _ _ _).1 (Reachable.init _ _ _ _ _) (eq_of_result hplain),
    (stopReason_iff _ _ _ _ _ _ _ _).2 tinySSD (eq_of_result htree)⟩

/-- With a context of eight columns the tree decoder leaves its loop for lack of room after three
tokens: reported as an EOS, with one token too many. -/
theorem stopReason_context_eos :
    (tinyTreeCall (tinySpec [8] 4 4) 5).1 = .ok ⟨"aaa", 2, 4, .eos⟩ ∧
      ∀ es, (tinyTreeCall (tinySpec [8] 4 4) 5).2.trace =
          es ++ (tinySSDWorld (tinySpec [8] 4 4)).trace →
        ¬TellsTruth (.ssd tinySSD) (tinySpec [8] 4 4) (tinyEnv 0 0) tinyStream [0, 0] (tinyCfg 5)
          (tinySSDWorld (tinySpec [8] 4 4)) es ⟨"aaa", 2, 4, .eos⟩ := by
  refine ⟨by decide +kernel, fun es ht htells => ?_⟩
  have hes := newEvents_eq ht
  have hcount : (emittedTokens es).length = 3 := by
    rw [← hes]
    decide +kernel
  have hsampled : (sampledTokens es).length = 3 := by
    rw [← hes]
    decide +kernel
  have hno : ¬AskedToStop tinyStream es := not_asked fun _ _ _ => rfl
  obtain ⟨-, t, hsaw, -⟩ := (htells.reason.eos hno).mp rfl
  rw [hsaw, List.length_append, hcount] at hsampled
  cases hsampled

end Geniex
