import Geniex.LLM.Eviction
import Geniex.Pipeline.Generate
import Geniex.SSD.Greedy

/-!
# The reported stop reason

`generateTokens` infers the reason from the number of tokens returned and a flag. `TrueReason` says
what the reason ought to be, in terms of what the call has logged.

* `decodeLoop_exit`, `ssdLoop_exit`: how the two decode loops are left.
-/

namespace Geniex

open Prog

variable {ρ I : Type} {spec : LLMSpec} {env : Env Int32 ρ I} {cfg : GenerationConfig}
  {callback : List Int32 → CallbackAnswer} {prompt : List Int32} {w₀ : World Int32 ρ I}

/-! ## What the reason ought to be -/

/-- `reason` is the true one of four, asked in this order. -/
structure TrueReason (asked sawEos reached full : Prop) (reason : ReportedReason) : Prop where
  user : asked → reason = .user
  eos : ¬asked → (reason = .eos ↔ sawEos)
  length : ¬asked → ¬sawEos → (reason = .length ↔ reached)
  contextLength : ¬asked → ¬sawEos → ¬reached → reason = .contextLength ∧ full

/-- The caller's callback has asked to stop. -/
def AskedToStop (s : Stream) (es : List (Event Int32 I)) : Prop :=
  ∃ said, said ≠ [] ∧ said <+: emittedTokens es ∧ s.onEachToken said = .stop

/-- The model looks at the token that it samples once it has returned `n`. The plain decoder does
not look at the one behind the last that it may return. -/
def ModelClass.LooksAt (m : ModelClass) (cfg : GenerationConfig) (n : ℕ) : Prop :=
  match m with
  | llm => (n : ℤ) < cfg.maxTokens.toInt
  | ssd _ => True

/-- The model has sampled an EOS where the next returned token would have stood. -/
def EosNext (m : ModelClass) (spec : LLMSpec) (cfg : GenerationConfig)
    (es : List (Event Int32 I)) : Prop :=
  m.LooksAt cfg (emittedTokens es).length ∧
    ∃ t, sampledTokens es = emittedTokens es ++ [t] ∧ isEos spec t = true

/-- The call, which has returned `out`, was ended because the context is full: the plain decoder
throws, the tree decoder leaves its loop at a head without room for a tree. -/
def ContextFull (m : ModelClass) (spec : LLMSpec) (env : Env Int32 ρ I) (prompt : List Int32)
    (cfg : GenerationConfig) (callback : List Int32 → CallbackAnswer) (w₀ : World Int32 ρ I)
    (out : List Int32) : Prop :=
  match m with
  | .llm => ∃ msg, (Geniex.generate spec env prompt cfg callback w₀).1 =
      .error (.contextLengthExceeded msg)
  | .ssd ssd => ∃ w tree n, LoopHead spec env ssd prompt cfg callback w₀ w tree out (n + 1) ∧
      spec.cl w.activeClIdx < w.nPast + ssd.totalSsdTokens spec

/-- What a result owes its caller, for a call that has logged `es`. -/
structure TellsTruth (m : ModelClass) (spec : LLMSpec) (env : Env Int32 ρ I) (s : Stream)
    (prompt : List Int32) (cfg : GenerationConfig) (w₀ : World Int32 ρ I)
    (es : List (Event Int32 I)) (result : GenerateResult) : Prop where
  reason : TrueReason (AskedToStop s es) (EosNext m spec cfg es)
    ((emittedTokens es).length = cfg.maxTokens.toInt)
    (ContextFull m spec env prompt (effectiveCfg cfg) s.onEachToken w₀ (emittedTokens es))
    result.stopReason
  count : result.generatedTokens =
    (emittedTokens es).length + if result.stopReason = .eos then 1 else 0

/-- The reason that `generateTokens` infers when the model returns. -/
def inferredReason (s : Stream) (maxTokens : Int32) (out : List Int32) : ReportedReason :=
  if s.userStopped out = true then .user
  else if maxTokens.toInt ≤ out.length then .length
  else .eos

/-- The inferred reason is true if the callback has stopped the call; otherwise, after an EOS if the
limit was not reached, and without an EOS if exactly the limit was returned. -/
theorem inferredReason_true (s : Stream) (maxTokens : Int32) (sawEos full : Prop)
    {out : List Int32} {es : List (Event Int32 I)} (hout : emittedTokens es = out) :
    (AskedToStop s es → TrueReason (AskedToStop s es) sawEos (out.length = maxTokens.toInt) full
      (inferredReason s maxTokens out)) ∧
    (¬AskedToStop s es → sawEos →
      (TrueReason (AskedToStop s es) sawEos (out.length = maxTokens.toInt) full
        (inferredReason s maxTokens out) ↔ (out.length : ℤ) < maxTokens.toInt)) ∧
    (¬AskedToStop s es → ¬sawEos →
      (TrueReason (AskedToStop s es) sawEos (out.length = maxTokens.toInt) full
        (inferredReason s maxTokens out) ↔ (out.length : ℤ) = maxTokens.toInt)) := by
  have hasked : AskedToStop s es ↔ s.userStopped out = true := by
    rw [Stream.userStopped_iff, ← hout]
    rfl
  refine ⟨fun h => ?_, fun hno hsaw => ?_, fun hno hsaw => ?_⟩
  · have hreason : inferredReason s maxTokens out = .user := if_pos (hasked.mp h)
    exact ⟨fun _ => hreason, fun hno => absurd h hno, fun hno => absurd h hno,
      fun hno => absurd h hno⟩
  · unfold inferredReason
    rw [if_neg fun h => hno (hasked.mpr h)]
    split_ifs with hle
    · refine ⟨fun h => ?_, fun h => absurd hle (not_le.mpr h)⟩
      cases (h.eos hno).mpr hsaw
    · exact ⟨fun _ => not_le.mp hle, fun _ => ⟨fun h => absurd h hno, fun _ => iff_of_true rfl hsaw,
        fun _ h => absurd hsaw h, fun _ h => absurd hsaw h⟩⟩
  · unfold inferredReason
    rw [if_neg fun h => hno (hasked.mpr h)]
    split_ifs with hle
    · refine ⟨fun h => (h.length hno hsaw).mp rfl, fun h => ⟨fun h => absurd h hno, fun _ => ?_,
        fun _ _ => iff_of_true rfl h, fun _ _ hlt => absurd h hlt⟩⟩
      exact iff_of_false nofun hsaw
    · refine ⟨fun h => absurd ((h.eos hno).mp rfl) hsaw, fun h => absurd h.ge hle⟩

/-- Nothing that was emitted was answered with a stop. -/
theorem not_asked {s : Stream} {es : List (Event Int32 I)}
    (h : ∀ said, said ≠ [] → said <+: emittedTokens es → s.onEachToken said = .continue) :
    ¬AskedToStop s es := by
  rintro ⟨said, hne, hpre, hstop⟩
  rw [h said hne hpre] at hstop
  cases hstop

/-! ## The plain decoder -/

/-- The state in which the decode loop starts. -/
def startLoop (env : Env Int32 ρ I) (w : World Int32 ρ I) : World Int32 ρ I :=
  { w with clockKeeper := w.clockKeeper || (env.decodePool && 0 < env.clockKeeperThreads) }

/-- The heads of the decode loop of a call: the steps left, the next token, what has been emitted,
and the state. -/
inductive CallHead (spec : LLMSpec) (env : Env Int32 ρ I) (prompt : List Int32)
    (cfg : GenerationConfig) (callback : List Int32 → CallbackAnswer) (w₀ : World Int32 ρ I) :
    ℕ → Int32 → List Int32 → World Int32 ρ I → Prop
  | first {first : Int32} {w : World Int32 ρ I}
      (hprefill : prefillStage spec env prompt cfg w₀ = (.ok first, w)) :
      CallHead spec env prompt cfg callback w₀ cfg.maxTokens.toInt.toNat first [] (startLoop env w)
  | next {n : ℕ} {tok next : Int32} {out : List Int32} {w w₁ w₂ : World Int32 ρ I}
      (h : CallHead spec env prompt cfg callback w₀ (n + 1) tok out w)
      (heos : isEos spec tok = false) (hanswer : callback (out ++ [tok]) = .continue)
      (hstep : decodeStep spec env cfg tok (w.log (.emitted tok)) = (.ok (), w₁))
      (hsample : sampleNextToken spec env .decode 0 w₁ = (.ok next, w₂)) :
      CallHead spec env prompt cfg callback w₀ n next (out ++ [tok]) w₂

theorem map_id_eq (out : List Int32) : out.map Token.id = out := List.map_id' out

theorem CallHead.decodeHead {n : ℕ} {tok : Int32} {out : List Int32} {w : World Int32 ρ I}
    (h : CallHead spec env prompt cfg callback w₀ n tok out w) :
    DecodeHead spec env prompt cfg callback w₀ n tok out w := by
  induction h with
  | first hprefill => exact DecodeHead.first _ hprefill
  | next h heos hanswer hstep hsample ih =>
    exact DecodeHead.next ih heos (by rw [map_id_eq]; exact hanswer) hstep hsample

/-- How the decode loop is left at a head. -/
inductive LoopExit (spec : LLMSpec) (env : Env Int32 ρ I) (cfg : GenerationConfig)
    (callback : List Int32 → CallbackAnswer) :
    ℕ → Int32 → List Int32 → World Int32 ρ I → Except Err (List Int32) × World Int32 ρ I → Prop
  | limit {tok : Int32} {out : List Int32} {w : World Int32 ρ I} :
      LoopExit spec env cfg callback 0 tok out w (.ok out, w.log (.stopped .maxTokens))
  | eos {n : ℕ} {tok : Int32} {out : List Int32} {w : World Int32 ρ I}
      (heos : isEos spec tok = true) :
      LoopExit spec env cfg callback (n + 1) tok out w (.ok out, w.log (.stopped .eos))
  | stop {n : ℕ} {tok : Int32} {out : List Int32} {w : World Int32 ρ I}
      (heos : isEos spec tok = false) (hanswer : callback (out ++ [tok]) = .stop) :
      LoopExit spec env cfg callback (n + 1) tok out w
        (.ok (out ++ [tok]), (w.log (.emitted tok)).log (.stopped .callback))
  | throw {n : ℕ} {tok : Int32} {out : List Int32} {w : World Int32 ρ I}
      (heos : isEos spec tok = false) (hanswer : callback (out ++ [tok]) = .throw) :
      LoopExit spec env cfg callback (n + 1) tok out w (.error .callbackThrew, w.log (.emitted tok))
  | step {n : ℕ} {tok : Int32} {out : List Int32} {w w' : World Int32 ρ I} {e : Err}
      (heos : isEos spec tok = false) (hanswer : callback (out ++ [tok]) = .continue)
      (hstep : decodeStep spec env cfg tok (w.log (.emitted tok)) = (.error e, w')) :
      LoopExit spec env cfg callback (n + 1) tok out w (.error e, w')

/-- The decode loop from a head on is left at a head. -/
theorem decodeLoop_exit {n : ℕ} {tok : Int32} {out : List Int32} {w : World Int32 ρ I}
    (h : CallHead spec env prompt cfg callback w₀ n tok out w) :
    ∃ n' tok' out' w', CallHead spec env prompt cfg callback w₀ n' tok' out' w' ∧
      LoopExit spec env cfg callback n' tok' out' w'
        (decodeLoop spec env cfg callback n tok out w) := by
  induction n generalizing tok out w with
  | zero => exact ⟨0, tok, out, w, h, LoopExit.limit⟩
  | succ n ih =>
    unfold decodeLoop
    by_cases heos : isEos spec tok = true
    · rw [if_pos heos]
      exact ⟨n + 1, tok, out, w, h, LoopExit.eos heos⟩
    · have heos' : isEos spec tok = false := by simpa using heos
      rw [if_neg heos, modify_bind, map_id_eq]
      cases hanswer : callback (out ++ [tok]) with
      | stop => exact ⟨n + 1, tok, out, w, h, LoopExit.stop heos' hanswer⟩
      | throw => exact ⟨n + 1, tok, out, w, h, LoopExit.throw heos' hanswer⟩
      | «continue» =>
        dsimp only
        rcases hstep : decodeStep spec env cfg tok (w.log (.emitted tok)) with ⟨_ | _, w₁⟩
        · rw [bind_error hstep]
          exact ⟨n + 1, tok, out, w, h, LoopExit.step heos' hanswer hstep⟩
        · rw [bind_ok hstep]
          rcases hsample : sampleNextToken spec env .decode 0 w₁ with ⟨_ | next, w₂⟩
          · exact (Throws.error (T := fun _ => False) (sampleNextToken_throws _ _) hsample).elim
          · rw [bind_ok hsample]
            exact ih (CallHead.next h heos' hanswer hstep hsample)

/-- What has been emitted and sampled at a head. -/
theorem CallHead.said {n : ℕ} {tok : Int32} {out : List Int32} {w : World Int32 ρ I}
    (h : CallHead spec env prompt cfg callback w₀ n tok out w) :
    Said spec callback (withSampler cfg w₀) (some prompt) (out ++ [tok]) out []
        (prompt ++ (out ++ [tok])) w ∧
      out.length + n = cfg.maxTokens.toInt.toNat ∧ (∀ t ∈ out, isEos spec t = false) ∧
      ∀ said, said ≠ [] → said <+: out → callback said = .continue := by
  induction h with
  | @first first w hprefill =>
    have hfirst := (prefillStage_said callback prompt cfg w₀).ok rfl hprefill
    exact ⟨Said.work.plain w (startLoop env w) rfl rfl hfirst, Nat.zero_add _, by simp,
      fun said hne hpre => absurd (List.prefix_nil.mp hpre) hne⟩
  | @next n tok next out w w₁ w₂ h heos hanswer hstep hsample ih =>
    obtain ⟨hsaid, hlen, hnot, hcont⟩ := ih
    have hnot' : ∀ t ∈ out ++ [tok], isEos spec t = false :=
      List.forall_mem_append.mpr ⟨hnot, List.forall_mem_singleton.mpr heos⟩
    have hcont' : ∀ said, said ≠ [] → said <+: out → callback (said.map Token.id) = .continue :=
      fun said hne hpre => by rw [map_id_eq]; exact hcont said hne hpre
    have hforward := (Said.work.decodeStep (fun w hw => hw.appended) cfg).ok
      (hsaid.emit (t := tok) hnot' hcont') hstep
    refine ⟨?_, ?_, hnot', fun said hne hpre => ?_⟩
    · have hnext := (Said.sample (E := fun _ _ => True) .decode 0).ok hforward hsample
      rwa [List.append_assoc prompt] at hnext
    · rw [List.length_append, List.length_singleton]
      omega
    · rcases List.prefix_concat_iff.mp hpre with rfl | hpre
      · exact hanswer
      · exact hcont said hne hpre

/-- What has been emitted and sampled once the token of a head is emitted. -/
theorem CallHead.emit {n : ℕ} {tok : Int32} {out : List Int32} {w : World Int32 ρ I}
    (h : CallHead spec env prompt cfg callback w₀ n tok out w) (heos : isEos spec tok = false) :
    Said spec callback (withSampler cfg w₀) (some prompt) (out ++ [tok]) (out ++ [tok]) []
      (prompt ++ (out ++ [tok])) (w.log (.emitted tok)) := by
  obtain ⟨hsaid, -, hnot, hcont⟩ := h.said
  refine hsaid.emit (List.forall_mem_append.mpr ⟨hnot, List.forall_mem_singleton.mpr heos⟩)
    fun said hne hpre => ?_
  rw [map_id_eq]
  exact hcont said hne hpre

/-- A step with room for its token does not meet the context limit. -/
theorem decodeStep_context {w w' : World Int32 ρ I} {tok : Int32} {msg : String}
    (hc : Counted spec w)
    (hstep : decodeStep spec env cfg tok w = (.error (.contextLengthExceeded msg), w')) :
    ¬RoomFor spec cfg 1 w.nPast := by
  intro hroom
  have hrun : Triple (fun v => v = w) (decodeStep spec env cfg tok) (fun _ _ => True)
      (fun e _ => e = .blocked ∨ Failed e) := by
    refine Triple.bind (((waitPool_quietly w).and waitPool_blocked).conseq
      (fun v hv => ⟨by rw [hv]; exact Quietly.refl w, trivial⟩) (fun _ _ h => h.1)
      fun _ _ h => Or.inl h.2) fun _ => Triple.of_eq fun w₁ hw₁ => ?_
    have hroom₁ : RoomFor spec cfg 1 w₁.nPast := by rwa [hw₁.nPast]
    refine Triple.bind ((ensureRoom_fails (hw₁.counted hc) hroom₁ true _).conseq (fun _ h => h)
      (fun _ _ h => h) fun _ _ h => Or.inr h) fun _ => ?_
    exact (decodeForward_throws (T := fun e => e = .blocked ∨ Failed e)
      (fun msg => Or.inr ⟨msg, rfl⟩) tok).pre fun _ _ => trivial
  rcases hrun.error rfl hstep with h | ⟨msg', h⟩ <;> cases h

/-- A step without room for its token meets the context limit, if the wait before it ends. -/
theorem decodeStep_rejects {w : World Int32 ρ I} (tok : Int32)
    (hroom : ¬RoomFor spec cfg 1 w.nPast) :
    (decodeStep spec env cfg tok w).1 = .error .blocked ∨
      (decodeStep spec env cfg tok w).1 =
        .error (.contextLengthExceeded (generationExceedsMsg spec)) := by
  unfold decodeStep
  rcases hwait : waitPool spec env w with ⟨e | _, w₁⟩
  · left
    rw [bind_error hwait]
    exact congrArg _ (waitPool_blocked.error trivial hwait)
  · right
    have hq : Quietly spec w w₁ := (waitPool_quietly w).ok (Quietly.refl w) hwait
    rw [bind_ok hwait, bind_error (ensureRoom_rejects (by rwa [hq.nPast]) _ _)]

/-- A call comes to the decode loop by a prefill, and ends like the loop from any head on. -/
theorem CallHead.loop {n : ℕ} {tok : Int32} {out : List Int32} {w : World Int32 ρ I}
    (h : CallHead spec env prompt cfg callback w₀ n tok out w) :
    ∃ first w₁, prefillStage spec env prompt cfg w₀ = (.ok first, w₁) ∧
      decodeLoop spec env cfg callback cfg.maxTokens.toInt.toNat first [] (startLoop env w₁) =
        decodeLoop spec env cfg callback n tok out w := by
  induction h with
  | first hprefill => exact ⟨_, _, hprefill, rfl⟩
  | @next n tok next out w w₁ w₂ h heos hanswer hstep hsample ih =>
    obtain ⟨first, v, hprefill, hloop⟩ := ih
    refine ⟨first, v, hprefill, hloop.trans ?_⟩
    rw [decodeLoop, if_neg (by rw [heos]; decide), modify_bind, map_id_eq, hanswer]
    dsimp only
    rw [bind_ok hstep, bind_ok hsample]

/-- The decode window ends like its loop, with nothing said after it, or waiting. -/
theorem decodeStage_loop {r : Except Err (List Int32)} {first : Int32} {w₁ w' : World Int32 ρ I}
    (hrun : decodeStage spec env cfg callback first w₁ = (r, w')) (hne : r ≠ .error .blocked) :
    ∃ w₂, decodeLoop spec env cfg callback cfg.maxTokens.toInt.toNat first [] (startLoop env w₁) =
        (r, w₂) ∧ ∀ J : World Int32 ρ I → Prop, WorkInvariant J → J w₂ → J w' := by
  unfold decodeStage at hrun
  change ((decodeLoop spec env cfg callback cfg.maxTokens.toInt.toNat first []).onThrow
    (World.log (.abort env.decodePool)) >>= fun out => waitPool spec env >>= fun _ =>
      Prog.modify (fun w => { w with clockKeeper := w.clockKeeper && !env.decodePool }) >>=
        fun _ => pure out) (startLoop env w₁) = (r, w') at hrun
  rcases hloop : decodeLoop spec env cfg callback cfg.maxTokens.toInt.toNat first []
    (startLoop env w₁) with ⟨e | out, w₂⟩
  · have hthrow : ((decodeLoop spec env cfg callback cfg.maxTokens.toInt.toNat first []).onThrow
        (World.log (.abort env.decodePool))) (startLoop env w₁) =
        (.error e, w₂.log (.abort env.decodePool)) := by
      unfold Prog.onThrow
      rw [hloop]
    rw [bind_error hthrow] at hrun
    cases hrun
    exact ⟨w₂, rfl, fun J hJ hw => hJ.log _ _ trivial hw⟩
  · have hreturn : ((decodeLoop spec env cfg callback cfg.maxTokens.toInt.toNat first []).onThrow
        (World.log (.abort env.decodePool))) (startLoop env w₁) = (.ok out, w₂) := by
      unfold Prog.onThrow
      rw [hloop]
    rw [bind_ok hreturn] at hrun
    rcases hwait : waitPool spec env w₂ with ⟨e | _, w₃⟩
    · rw [bind_error hwait] at hrun
      cases hrun
      exact absurd (congrArg _ (waitPool_blocked.error trivial hwait)) hne
    · rw [bind_ok hwait] at hrun
      cases hrun
      exact ⟨w₂, rfl, fun J hJ hw => hJ.plain w₃ _ rfl rfl (hJ.wait.ok hw hwait)⟩

/-- A call ends in its prefill, or like its decode loop with nothing said after it, or waiting. -/
theorem generate_loop {r : Except Err (List Int32)} {w' : World Int32 ρ I}
    (hrun : Geniex.generate spec env prompt cfg callback w₀ = (r, w')) (hne : r ≠ .error .blocked) :
    (∃ e, r = .error e ∧ prefillStage spec env prompt cfg w₀ = (.error e, w')) ∨
      ∃ first w₁ w₂, prefillStage spec env prompt cfg w₀ = (.ok first, w₁) ∧
        decodeLoop spec env cfg callback cfg.maxTokens.toInt.toNat first [] (startLoop env w₁) =
          (r, w₂) ∧
        ∀ J : World Int32 ρ I → Prop, WorkInvariant J → J w₂ → J w' := by
  have hrun' : (prefillStage spec env prompt cfg >>= fun first =>
      decodeStage spec env cfg callback first >>= fun out =>
        Prog.modify (restorePrefillStride spec) >>= fun _ => pure out) w₀ = (r, w') := by
    rw [← Prog.bind_assoc']
    exact hrun
  rcases hprefill : prefillStage spec env prompt cfg w₀ with ⟨e | first, w₁⟩
  · rw [bind_error hprefill] at hrun'
    cases hrun'
    exact Or.inl ⟨e, rfl, rfl⟩
  · right
    rw [bind_ok hprefill] at hrun'
    rcases hstage : decodeStage spec env cfg callback first w₁ with ⟨e | out, w₂⟩
    · rw [bind_error hstage] at hrun'
      cases hrun'
      obtain ⟨w₃, hloop, hsame⟩ := decodeStage_loop hstage hne
      exact ⟨first, w₁, w₃, rfl, hloop, hsame⟩
    · rw [bind_ok hstage] at hrun'
      cases hrun'
      obtain ⟨w₃, hloop, hsame⟩ := decodeStage_loop hstage nofun
      refine ⟨first, w₁, w₃, rfl, hloop, fun J hJ hw => ?_⟩
      exact hJ.plain (promoteCL spec w₂.nPast spec.seqLenPrefill spec.seqLenDecode w₂) _ rfl rfl
        (hJ.promote _ _ _ (hsame J hJ hw))

/-- At a head where there is no room for the next token the call meets the context limit, with all
that it has sampled emitted, or it never returns. -/
theorem CallHead.rejected {n : ℕ} {tok : Int32} {out : List Int32} {w w' : World Int32 ρ I}
    {r : Except Err (List Int32)} (h : CallHead spec env prompt cfg callback w₀ (n + 1) tok out w)
    (heos : isEos spec tok = false) (hanswer : callback (out ++ [tok]) = .continue)
    (hroom : ¬RoomFor spec cfg 1 w.nPast)
    (hrun : Geniex.generate spec env prompt cfg callback w₀ = (r, w')) :
    r = .error .blocked ∨ (∃ msg, r = .error (.contextLengthExceeded msg)) ∧
      Said spec callback (withSampler cfg w₀) (some prompt) (out ++ [tok]) (out ++ [tok]) []
        (prompt ++ (out ++ [tok])) w' := by
  by_cases hne : r = .error .blocked
  · exact Or.inl hne
  right
  obtain ⟨first, w₁, hprefill, hloop⟩ := h.loop
  rcases generate_loop hrun hne with ⟨e, -, hfail⟩ | ⟨first', v, w₂, hprefill', hloop', hsame⟩
  · rw [hprefill] at hfail
    cases hfail
  · rw [hprefill] at hprefill'
    cases hprefill'
    rw [hloop] at hloop'
    have hreject : (decodeStep spec env cfg tok (w.log (.emitted tok))).1 = .error .blocked ∨
        (decodeStep spec env cfg tok (w.log (.emitted tok))).1 =
          .error (.contextLengthExceeded (generationExceedsMsg spec)) :=
      decodeStep_rejects tok hroom
    rw [decodeLoop, if_neg (by rw [heos]; decide), modify_bind, map_id_eq, hanswer] at hloop'
    dsimp only at hloop'
    rcases hstep : decodeStep spec env cfg tok (w.log (.emitted tok)) with ⟨e | _, w₃⟩
    · rw [bind_error hstep] at hloop'
      cases hloop'
      have hcut := (Said.work.decodeStep (fun w hw => hw.appended) cfg).error (h.emit heos) hstep
      rw [hstep] at hreject
      refine ⟨?_, hsame _ Said.work hcut⟩
      rcases hreject with h | h
      · cases h
        exact absurd rfl hne
      · cases h
        exact ⟨_, rfl⟩
    · rw [hstep] at hreject
      rcases hreject with h | h <;> cases h

/-- The plain decoder is not ended at the wrong place: the limit is no less than zero, it is not zero
if the prompt has no room, and there is room behind the last token that the call may return. -/
structure LLMReasonClear (spec : LLMSpec) (env : Env Int32 ρ I) (prompt : List Int32)
    (cfg : GenerationConfig) (callback : List Int32 → CallbackAnswer) (w₀ : World Int32 ρ I) :
    Prop where
  limit : RoomFor spec cfg prompt.length w₀.nPast → 0 ≤ cfg.maxTokens.toInt
  entry : ¬RoomFor spec cfg prompt.length w₀.nPast → cfg.maxTokens.toInt ≠ 0
  step : ∀ n tok out w, CallHead spec env prompt cfg callback w₀ (n + 1) tok out w →
    isEos spec tok = false → callback (out ++ [tok]) = .continue →
    ((out ++ [tok]).length : ℤ) = cfg.maxTokens.toInt → RoomFor spec cfg 1 w.nPast

section Plain

variable {s : Stream} {w' : World Int32 ρ I} {es : List (Event Int32 I)}

/-- A prompt that is prefilled has room. -/
theorem roomFor_of_prefill {first : Int32} {w : World Int32 ρ I}
    (h : prefillStage spec env prompt cfg w₀ = (.ok first, w)) :
    RoomFor spec cfg prompt.length w₀.nPast := by
  by_contra hroom
  rw [prefillStage_rejects hroom] at h
  cases h

/-- In a call that returns there is room at every step. -/
theorem CallHead.room_of_ok {n : ℕ} {tok : Int32} {out out' : List Int32} {w : World Int32 ρ I}
    (h : CallHead spec env prompt cfg callback w₀ (n + 1) tok out w)
    (heos : isEos spec tok = false) (hanswer : callback (out ++ [tok]) = .continue)
    (hrun : Geniex.generate spec env prompt cfg callback w₀ = (.ok out', w')) :
    RoomFor spec cfg 1 w.nPast := by
  by_contra hroom
  rcases h.rejected heos hanswer hroom hrun with h | ⟨⟨msg, h⟩, -⟩ <;> cases h

/-- A call of the plain decoder that returns is given the true reason if and only if the limit is no
less than zero. -/
theorem llm_returned_iff {out : List Int32} (full : Prop)
    (hrun : Geniex.generate spec env prompt (effectiveCfg cfg) s.onEachToken w₀ = (.ok out, w')) :
    ∃ es, w'.trace = es ++ w₀.trace ∧ emittedTokens es = out ∧
      (TrueReason (AskedToStop s es) (EosNext .llm spec cfg es) (out.length = cfg.maxTokens.toInt)
        full (inferredReason s cfg.maxTokens out) ↔ 0 ≤ cfg.maxTokens.toInt) := by
  rcases generate_loop hrun nofun with ⟨e, he, -⟩ | ⟨first, w₁, w₂, hprefill, hloop, hsame⟩
  · cases he
  obtain ⟨n, tok, out', w, hhead, hexit⟩ := decodeLoop_exit (CallHead.first hprefill)
  rw [hloop] at hexit
  obtain ⟨hsaid, hlen, -, hcont⟩ := hhead.said
  have hmax : (effectiveCfg cfg).maxTokens = cfg.maxTokens := rfl
  rw [hmax] at hlen
  cases hexit with
  | limit =>
    obtain ⟨⟨es, ht, -, -, hsampled, hemitted, -⟩, -⟩ := hsame _ Said.work hsaid.stop
    rw [withSampler_trace] at ht
    refine ⟨es, ht, hemitted, ?_⟩
    have hno : ¬AskedToStop s es := not_asked fun said hne hpre =>
      hcont said hne (hemitted ▸ hpre)
    have hsaw : ¬EosNext .llm spec cfg es := by
      rintro ⟨hlooks, -⟩
      change ((emittedTokens es).length : ℤ) < _ at hlooks
      rw [hemitted] at hlooks
      omega
    exact ((inferredReason_true s cfg.maxTokens _ full hemitted).2.2 hno hsaw).trans
      ⟨fun h => by omega, fun h => by omega⟩
  | eos heos =>
    obtain ⟨⟨es, ht, -, -, hsampled, hemitted, -⟩, -⟩ := hsame _ Said.work hsaid.stop
    rw [withSampler_trace] at ht
    refine ⟨es, ht, hemitted, ?_⟩
    have hno : ¬AskedToStop s es := not_asked fun said hne hpre =>
      hcont said hne (hemitted ▸ hpre)
    have hlt : (out.length : ℤ) < cfg.maxTokens.toInt := by omega
    have hsaw : EosNext .llm spec cfg es := by
      refine ⟨?_, tok, by rw [hsampled, hemitted], heos⟩
      show ((emittedTokens es).length : ℤ) < _
      rwa [hemitted]
    exact ((inferredReason_true s cfg.maxTokens _ full hemitted).2.1 hno hsaw).trans
      (iff_of_true hlt (by omega))
  | stop heos hanswer =>
    obtain ⟨⟨es, ht, -, -, hsampled, hemitted, -⟩, -⟩ := hsame _ Said.work (hhead.emit heos).stop
    rw [withSampler_trace] at ht
    refine ⟨es, ht, hemitted, iff_of_true ((inferredReason_true s cfg.maxTokens _ full hemitted).1 ?_) (by omega)⟩
    exact ⟨out' ++ [tok], by simp, by rw [hemitted], hanswer⟩

/-- A call of the plain decoder that meets the context limit is given the true reason if and only if
it has not emitted exactly the limit. -/
theorem llm_cut_iff {msg : String}
    (hrun : Geniex.generate spec env prompt (effectiveCfg cfg) s.onEachToken w₀ =
      (.error (.contextLengthExceeded msg), w')) :
    ∃ es, w'.trace = es ++ w₀.trace ∧
      (TrueReason (AskedToStop s es) (EosNext .llm spec cfg es)
        ((emittedTokens es).length = cfg.maxTokens.toInt)
        (ContextFull .llm spec env prompt (effectiveCfg cfg) s.onEachToken w₀ (emittedTokens es))
        .contextLength ↔ ((emittedTokens es).length : ℤ) ≠ cfg.maxTokens.toInt) := by
  have hfull : ∀ out, ContextFull .llm spec env prompt (effectiveCfg cfg) s.onEachToken w₀ out :=
    fun out => ⟨msg, congrArg Prod.fst hrun⟩
  have hcut : ∀ es : List (Event Int32 I), sampledTokens es = emittedTokens es →
      (∀ said, said ≠ [] → said <+: emittedTokens es → s.onEachToken said = .continue) →
      (TrueReason (AskedToStop s es) (EosNext .llm spec cfg es)
        ((emittedTokens es).length = cfg.maxTokens.toInt)
        (ContextFull .llm spec env prompt (effectiveCfg cfg) s.onEachToken w₀ (emittedTokens es))
        .contextLength ↔ ((emittedTokens es).length : ℤ) ≠ cfg.maxTokens.toInt) := by
    intro es hsampled hcont
    have hno := not_asked hcont
    have hsaw : ¬EosNext .llm spec cfg es := by
      rintro ⟨-, t, ht, -⟩
      rw [hsampled] at ht
      simpa using congrArg List.length ht
    constructor
    · intro h hlen
      cases (h.length hno hsaw).mpr hlen
    · exact fun hne => ⟨fun h => absurd h hno, fun _ => iff_of_false nofun hsaw,
        fun _ _ => iff_of_false nofun hne, fun _ _ _ => ⟨rfl, hfull _⟩⟩
  rcases generate_loop hrun nofun with ⟨e, -, hfail⟩ | ⟨first, w₁, w₂, hprefill, hloop, hsame⟩
  · obtain ⟨⟨es, ht, -, -, hsampled, hemitted, -⟩, -⟩ :=
      (prefillStage_said s.onEachToken prompt (effectiveCfg cfg) w₀).error rfl hfail
    rw [withSampler_trace] at ht
    refine ⟨es, ht, hcut es (by rw [hsampled, hemitted]) fun said hne hpre => ?_⟩
    rw [hemitted] at hpre
    exact absurd (List.prefix_nil.mp hpre) hne
  · obtain ⟨n, tok, out', w, hhead, hexit⟩ := decodeLoop_exit (CallHead.first hprefill)
    rw [hloop] at hexit
    cases hexit with
    | step heos hanswer hstep =>
      have hw := (Said.work.decodeStep (fun w hw => hw.appended) _).error (hhead.emit heos) hstep
      obtain ⟨⟨es, ht, -, -, hsampled, hemitted, -⟩, -⟩ := hsame _ Said.work hw
      rw [withSampler_trace] at ht
      refine ⟨es, ht, hcut es (by rw [hsampled, hemitted]) fun said hne hpre => ?_⟩
      rw [hemitted] at hpre
      rcases List.prefix_concat_iff.mp hpre with rfl | hpre
      · exact hanswer
      · exact hhead.said.2.2.2 said hne hpre

/-- Two accounts of what a call has said agree. -/
theorem Said.unique {p p' : Option (List Int32)} {said said' emitted emitted' fed fed' : List Int32}
    {stops stops' : List StopReason}
    (h : Said spec callback (withSampler cfg w₀) p said emitted stops fed w')
    (h' : Said spec callback (withSampler cfg w₀) p' said' emitted' stops' fed' w') :
    emitted = emitted' := by
  obtain ⟨⟨es, ht, -, -, -, hemitted, -⟩, -⟩ := h
  obtain ⟨⟨es', ht', -, -, -, hemitted', -⟩, -⟩ := h'
  obtain rfl := List.append_cancel_right (ht.symm.trans ht')
  exact hemitted.symm.trans hemitted'

/-- A call that meets the context limit is ended at the wrong place if it has emitted exactly the
limit. -/
theorem llm_cut_clear {msg : String} (h : Reachable spec env w₀)
    (hrun : Geniex.generate spec env prompt cfg callback w₀ =
      (.error (.contextLengthExceeded msg), w')) :
    ∃ p said emitted stops fed, Said spec callback (withSampler cfg w₀) p said emitted stops fed w' ∧
      (LLMReasonClear spec env prompt cfg callback w₀ ↔
        (emitted.length : ℤ) ≠ cfg.maxTokens.toInt) := by
  rcases generate_loop hrun nofun with ⟨e, he, hfail⟩ | ⟨first, w₁, w₂, hprefill, hloop, hsame⟩
  · cases he
    have hroom : ¬RoomFor spec cfg prompt.length w₀.nPast := by
      intro hroom
      obtain ⟨_, he⟩ := (prefillStage_fails h.counted hroom).error rfl hfail
      cases he
    refine ⟨_, _, _, _, _, (prefillStage_said callback prompt cfg w₀).error rfl hfail, ?_⟩
    constructor
    · exact fun hclear hzero => hclear.entry hroom hzero.symm
    · refine fun hne => ⟨fun hr => absurd hr hroom, fun _ hzero => hne hzero.symm, ?_⟩
      intro n tok out w hhead
      obtain ⟨first, w₁, hprefill, -⟩ := hhead.loop
      rw [hprefill] at hfail
      cases hfail
  · obtain ⟨n, tok, out, w, hhead, hexit⟩ := decodeLoop_exit (CallHead.first hprefill)
    rw [hloop] at hexit
    cases hexit with
    | step heos hanswer hstep =>
      have hw := hsame _ Said.work
        ((Said.work.decodeStep (fun w hw => hw.appended) cfg).error (hhead.emit heos) hstep)
      have hlen := hhead.said.2.1
      have hroom : ¬RoomFor spec cfg 1 w.nPast := by
        have hc := (log_quietly (e := .emitted tok) (by trivial) w).counted
          (hhead.decodeHead.counted h.counted)
        exact decodeStep_context (w := w.log (.emitted tok)) hc hstep
      refine ⟨_, _, _, _, _, hw, ?_⟩
      constructor
      · exact fun hclear hlimit => hroom (hclear.step _ _ _ _ hhead heos hanswer hlimit)
      · intro hne
        refine ⟨fun _ => by omega, fun hr => absurd (roomFor_of_prefill hprefill) hr, ?_⟩
        intro n' tok' out' v hhead' heos' hanswer' hlimit
        by_contra hroom'
        rcases hhead'.rejected heos' hanswer' hroom' hrun with h | ⟨-, hsaid⟩
        · cases h
        · rw [← hsaid.unique hw] at hne
          exact hne hlimit

/-- A call of the plain decoder through the pipeline tells the truth if and only if it is not ended at
the wrong place. -/
theorem llm_tellsTruth_iff {result : GenerateResult} (h : Reachable spec env w₀)
    (hrun : generateTokens .llm spec env s prompt cfg w₀ = (.ok result, w')) :
    ∃ es, w'.trace = es ++ w₀.trace ∧
      (TellsTruth .llm spec env s prompt cfg w₀ es result ↔
        LLMReasonClear spec env prompt (effectiveCfg cfg) s.onEachToken w₀) := by
  unfold generateTokens at hrun
  dsimp only [ModelClass.generate] at hrun
  rcases hgen : Geniex.generate spec env prompt (effectiveCfg cfg) s.onEachToken w₀ with ⟨e | out, w⟩
  · rw [hgen] at hrun
    cases e with
    | contextLengthExceeded msg =>
      cases hrun
      obtain ⟨es, ht, htrue⟩ := llm_cut_iff hgen
      obtain ⟨_, _, emitted, _, _, hsaid, hclear⟩ := llm_cut_clear h hgen
      obtain ⟨⟨es', ht', -, -, -, hemitted, -⟩, -⟩ := hsaid
      rw [withSampler_trace] at ht'
      obtain rfl := List.append_cancel_right (ht.symm.trans ht')
      rw [← hemitted] at hclear
      refine ⟨es, ht, Iff.trans ?_ (htrue.trans hclear.symm)⟩
      refine ⟨fun htells => htells.reason, fun hreason => ⟨hreason, ?_⟩⟩
      rw [newEvents_eq ht]
      rfl
    | _ => cases hrun
  · rw [hgen] at hrun
    cases hrun
    obtain ⟨es, ht, rfl, htrue⟩ := llm_returned_iff (ContextFull .llm spec env prompt
      (effectiveCfg cfg) s.onEachToken w₀ out) hgen
    have hclear : 0 ≤ cfg.maxTokens.toInt ↔
        LLMReasonClear spec env prompt (effectiveCfg cfg) s.onEachToken w₀ := by
      rcases generate_loop hgen nofun with ⟨e, he, -⟩ | ⟨first, w₁, w₂, hprefill, -, -⟩
      · cases he
      have hroom := roomFor_of_prefill hprefill
      exact ⟨fun hpos => ⟨fun _ => hpos, fun hno => absurd hroom hno,
        fun n tok out w hhead heos hanswer _ => hhead.room_of_ok heos hanswer hgen⟩,
        fun hclear => hclear.limit hroom⟩
    refine ⟨es, ht, Iff.trans ?_ (htrue.trans hclear)⟩
    rw [newEvents_eq ht]
    exact ⟨fun htells => htells.reason, fun hreason => ⟨hreason, rfl⟩⟩

end Plain

end Geniex
