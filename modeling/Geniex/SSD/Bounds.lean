import Geniex.LLM.WriteBack
import Geniex.SSD.Contract
import Geniex.SSD.Instance

/-!
# The buffers of the tree decoder

Every pass of a call logs the past it sees and the rows it fills, every commit the columns it
writes. `Tracked` says how these follow from the steps of the call; `insideBuffers_iff` says which
steps keep a call inside its buffers.
-/

namespace Geniex

open Prog FlatMem

variable {ρ I : Type} {spec : LLMSpec} {env : Env Int32 ρ I} {ssd : SSDConfig}

/-- The columns that a pass of `n` tokens commits at least. -/
def committed : Phase → ℕ → ℕ
  | .prefill, n => n
  | .decode, _ => 1

/-- An execution stays inside its graph: the past columns its mask clears and the rows it fills. -/
structure PassInside (spec : LLMSpec) (x : ExecRecord Int32 I) : Prop where
  past : ∀ j < x.ctx.nPast, j < spec.kvLen x.phase x.clIdx
  rows : ∀ i < x.ctx.currLen, i < spec.seqLen x.phase

/-- Every execution and every write-back of a log stays inside its buffers. -/
structure LogInside (spec : LLMSpec) (es : List (Event Int32 I)) : Prop where
  pass : ∀ x, Event.exec x ∈ es → PassInside spec x
  write : ∀ x, Event.kvWrite x ∈ es → InRow spec x

/-- The restride at the exit of a call that ends in `w` keeps every column of the history. -/
def RestrideKeeps (spec : LLMSpec) (w : World Int32 ρ I) : Prop :=
  w.nPast ≤ spec.kvLen .prefill w.activeClIdx ∧
    ∀ t, spec.hasTensor t = true → ∀ r < spec.rows t, ∀ c < w.nPast, ∀ b < spec.tokenSize t,
      (restrideActive spec .decode .prefill w.nPast w).kv t
          (cell (spec.kvLen .prefill w.activeClIdx) (spec.tokenSize t) r c b) =
        w.kv t (cell (spec.kvLen .decode w.activeClIdx) (spec.tokenSize t) r c b)

/-- The steps of a call that starts at `n₀` fit: no pass has more tokens than rows, and nothing is
committed past the row of the prefill stride. -/
structure StepsFit (spec : LLMSpec) (n₀ : ℕ) (es : List (Event Int32 I)) : Prop where
  entry : n₀ ≤ spec.kvLen .prefill 0
  step : ∀ phase n c, Event.step phase n c ∈ es →
    c ≤ spec.seqLen phase ∧ n + committed phase c ≤ spec.kvLen .prefill 0
  accepted : ∀ n path, Event.accepted n path ∈ es → n + path.length ≤ spec.kvLen .prefill 0

/-! ## Where the events of a call come from -/

/-- The steps of a log, each with an execution of its own unless it is `waiting` for its first one,
account for `m` columns and for every execution and write-back. -/
structure Tracked (n₀ m : ℕ) (waiting : Option (Phase × ℕ × ℕ)) (es : List (Event Int32 I)) :
    Prop where
  start : n₀ ≤ m
  step : ∀ phase n c, Event.step phase n c ∈ es → n + committed phase c ≤ m ∧
    (waiting = some (phase, n, c) ∨
      ∃ x, Event.exec x ∈ es ∧ x.phase = phase ∧ x.ctx.nPast = n ∧ x.ctx.currLen = c)
  accepted : ∀ n path, Event.accepted n path ∈ es → n + path.length ≤ m
  exec : ∀ x, Event.exec x ∈ es →
    x.clIdx = 0 ∧ Event.step x.phase x.ctx.nPast x.ctx.currLen ∈ es
  write : ∀ x, Event.kvWrite x ∈ es → x.clIdx = 0 ∧
    ((∃ c, Event.step x.phase x.off c ∈ es ∧ x.nTok = committed x.phase c) ∨
      ∃ path, Event.accepted x.off path ∈ es ∧ x.nTok = path.length)
  reached : m = n₀ ∨ (∃ phase n c, Event.step phase n c ∈ es ∧ m = n + committed phase c) ∨
    ∃ n path, Event.accepted n path ∈ es ∧ m = n + path.length

namespace Tracked

variable {n₀ m m' n c : ℕ} {phase : Phase} {waiting : Option (Phase × ℕ × ℕ)}
  {es : List (Event Int32 I)} {e : Event Int32 I}

theorem nil : Tracked n₀ n₀ none ([] : List (Event Int32 I)) where
  start := le_rfl
  step := by simp
  accepted := by simp
  exec := by simp
  write := by simp
  reached := Or.inl rfl

/-- One more event, by what it is. -/
theorem cons {waiting' : Option (Phase × ℕ × ℕ)} (h : Tracked n₀ m waiting es) (hm : m ≤ m')
    (hstep : ∀ phase n c, e = .step phase n c →
      n + committed phase c ≤ m' ∧ waiting' = some (phase, n, c))
    (hwait : ∀ s, waiting = some s → waiting' = some s ∨
      ∃ x, e = .exec x ∧ x.phase = s.1 ∧ x.ctx.nPast = s.2.1 ∧ x.ctx.currLen = s.2.2)
    (haccept : ∀ n path, e = .accepted n path → n + path.length ≤ m')
    (hexec : ∀ x, e = .exec x → x.clIdx = 0 ∧ Event.step x.phase x.ctx.nPast x.ctx.currLen ∈ es)
    (hwrite : ∀ x, e = .kvWrite x → x.clIdx = 0 ∧
      ((∃ c, Event.step x.phase x.off c ∈ es ∧ x.nTok = committed x.phase c) ∨
        ∃ path, Event.accepted x.off path ∈ es ∧ x.nTok = path.length))
    (hreached : m' = m ∨ (∃ phase n c, e = .step phase n c ∧ m' = n + committed phase c) ∨
      ∃ n path, e = .accepted n path ∧ m' = n + path.length) :
    Tracked n₀ m' waiting' (e :: es) := by
  have hold : ∀ {e' : Event Int32 I}, e' ∈ es → e' ∈ e :: es := List.mem_cons_of_mem e
  have hwrites : ∀ x : KVWrite, (x.clIdx = 0 ∧
      ((∃ c, Event.step x.phase x.off c ∈ es ∧ x.nTok = committed x.phase c) ∨
        ∃ path, Event.accepted x.off path ∈ es ∧ x.nTok = path.length)) →
      x.clIdx = 0 ∧
      ((∃ c, Event.step x.phase x.off c ∈ e :: es ∧ x.nTok = committed x.phase c) ∨
        ∃ path, Event.accepted x.off path ∈ e :: es ∧ x.nTok = path.length) := by
    rintro x ⟨hcl, ⟨c, hs, hn⟩ | ⟨path, hs, hn⟩⟩
    · exact ⟨hcl, Or.inl ⟨c, hold hs, hn⟩⟩
    · exact ⟨hcl, Or.inr ⟨path, hold hs, hn⟩⟩
  constructor
  · exact h.start.trans hm
  · intro phase n c he
    rcases List.mem_cons.mp he with rfl | he
    · obtain ⟨hle, hw⟩ := hstep _ _ _ rfl
      exact ⟨hle, Or.inl hw⟩
    · obtain ⟨hle, hw | ⟨x, hx, hrest⟩⟩ := h.step _ _ _ he
      · refine ⟨hle.trans hm, (hwait _ hw).imp id ?_⟩
        rintro ⟨x, rfl, hrest⟩
        exact ⟨x, List.mem_cons_self, hrest⟩
      · exact ⟨hle.trans hm, Or.inr ⟨x, hold hx, hrest⟩⟩
  · intro n path he
    rcases List.mem_cons.mp he with rfl | he
    · exact haccept _ _ rfl
    · exact (h.accepted _ _ he).trans hm
  · intro x he
    rcases List.mem_cons.mp he with heq | he
    · exact (hexec x heq.symm).imp_right hold
    · exact (h.exec x he).imp_right hold
  · intro x he
    rcases List.mem_cons.mp he with heq | he
    · exact hwrites x (hwrite x heq.symm)
    · exact hwrites x (h.write x he)
  · rcases hreached with rfl | ⟨phase, n, c, rfl, hr⟩ | ⟨n, path, rfl, hr⟩
    · refine h.reached.imp_right (Or.imp ?_ ?_)
      · rintro ⟨phase, n, c, hs, hr⟩
        exact ⟨phase, n, c, hold hs, hr⟩
      · rintro ⟨n, path, hs, hr⟩
        exact ⟨n, path, hold hs, hr⟩
    · exact Or.inr (Or.inl ⟨phase, n, c, List.mem_cons_self, hr⟩)
    · exact Or.inr (Or.inr ⟨n, path, List.mem_cons_self, hr⟩)

/-- A step starts. -/
theorem logStep (h : Tracked n₀ m none es) (hm : m ≤ n + committed phase c) :
    Tracked n₀ (n + committed phase c) (some (phase, n, c)) (.step phase n c :: es) := by
  refine h.cons hm ?_ nofun nofun nofun nofun (Or.inr (Or.inl ⟨phase, n, c, rfl, rfl⟩))
  intro phase' n' c' heq
  cases heq
  exact ⟨le_rfl, rfl⟩

/-- An execution of the step that is under way. -/
theorem logExec {x : ExecRecord Int32 I} (h : Tracked n₀ m waiting es) (hcl : x.clIdx = 0)
    (hx : Event.step x.phase x.ctx.nPast x.ctx.currLen ∈ es)
    (hw : ∀ s, waiting = some s → s = (x.phase, x.ctx.nPast, x.ctx.currLen)) :
    Tracked n₀ m none (.exec x :: es) := by
  refine h.cons le_rfl nofun ?_ nofun ?_ nofun (Or.inl rfl)
  · intro s hs
    obtain rfl := hw s hs
    exact Or.inr ⟨x, rfl, rfl, rfl, rfl⟩
  · intro x' heq
    cases heq
    exact ⟨hcl, hx⟩

/-- A write-back of a step, or of an accepted path. -/
theorem logWrite {x : KVWrite} (h : Tracked n₀ m none es) (hcl : x.clIdx = 0)
    (hx : (∃ c, Event.step x.phase x.off c ∈ es ∧ x.nTok = committed x.phase c) ∨
      ∃ path, Event.accepted x.off path ∈ es ∧ x.nTok = path.length) :
    Tracked n₀ m none (.kvWrite x :: es) := by
  refine h.cons le_rfl nofun nofun nofun nofun ?_ (Or.inl rfl)
  intro x' heq
  cases heq
  exact ⟨hcl, hx⟩

/-- A path is accepted. -/
theorem logAccepted {path : List Int32} (h : Tracked n₀ m none es) (hm : m ≤ n + path.length) :
    Tracked n₀ (n + path.length) none (.accepted n path :: es) := by
  refine h.cons hm nofun nofun ?_ nofun nofun (Or.inr (Or.inr ⟨n, path, rfl, rfl⟩))
  intro n' path' heq
  cases heq
  exact le_rfl

/-- Any other event. -/
theorem logOther (h : Tracked n₀ m none es)
    (he : match e with
      | .step _ _ _ | .exec _ | .kvWrite _ | .accepted _ _ => False
      | _ => True) : Tracked n₀ m none (e :: es) := by
  refine h.cons le_rfl ?_ nofun ?_ ?_ ?_ (Or.inl rfl)
  · rintro phase n c rfl
    exact he.elim
  · rintro n path rfl
    exact he.elim
  · rintro x rfl
    exact he.elim
  · rintro x rfl
    exact he.elim

/-- If the steps of a tracked log fit, its passes and write-backs stay inside their buffers. -/
theorem inside (h : Tracked n₀ m waiting es) (hfit : StepsFit spec n₀ es) : LogInside spec es := by
  have hlen : ∀ phase, spec.kvLen .prefill 0 ≤ spec.kvLen phase 0 := by
    intro phase
    cases phase with
    | prefill => exact le_rfl
    | decode => exact spec.kvLen_prefill_le 0
  refine ⟨fun x hx => ?_, fun x hx => ?_⟩
  · obtain ⟨hcl, hs⟩ := h.exec x hx
    obtain ⟨hrows, hle⟩ := hfit.step _ _ _ hs
    refine ⟨fun j hj => ?_, fun i hi => hi.trans_le hrows⟩
    rw [hcl]
    have := hlen x.phase
    omega
  · obtain ⟨hcl, ⟨c, hs, hn⟩ | ⟨path, hs, hn⟩⟩ := h.write x hx
    · unfold InRow
      rw [hcl, hn]
      exact (hfit.step _ _ _ hs).2.trans (hlen _)
    · unfold InRow
      rw [hcl, hn]
      exact (hfit.accepted _ _ hs).trans (hlen _)

/-- The steps of a tracked log fit if and only if its passes and write-backs stay inside their
buffers and it accounts for no more columns than the prefill stride has. -/
theorem fit_iff (h : Tracked n₀ m none es) :
    StepsFit spec n₀ es ↔ LogInside spec es ∧ m ≤ spec.kvLen .prefill 0 := by
  constructor
  · intro hfit
    refine ⟨h.inside hfit, ?_⟩
    rcases h.reached with rfl | ⟨phase, n, c, hs, rfl⟩ | ⟨n, path, hs, rfl⟩
    · exact hfit.entry
    · exact (hfit.step _ _ _ hs).2
    · exact hfit.accepted _ _ hs
  · rintro ⟨hin, hm⟩
    refine ⟨h.start.trans hm, fun phase n c hs => ?_, fun n path hs =>
      (h.accepted _ _ hs).trans hm⟩
    obtain ⟨hle, hw | ⟨x, hx, rfl, -, rfl⟩⟩ := h.step _ _ _ hs
    · cases hw
    · refine ⟨?_, hle.trans hm⟩
      by_contra hlt
      exact lt_irrefl _ ((hin.pass x hx).rows _ (not_le.mp hlt))

end Tracked

/-! ## One pass -/

section Passes

variable {w₀ w : World Int32 ρ I} {n m c : ℕ} {phase : Phase}
  {waiting : Option (Phase × ℕ × ℕ)}

/-- A pass of `c` tokens over a past of `n` columns is under way or complete. -/
structure InPass (w₀ : World Int32 ρ I) (phase : Phase) (n c m : ℕ)
    (waiting : Option (Phase × ℕ × ℕ)) (w : World Int32 ρ I) : Prop where
  since : Since w₀ (fun es => Tracked w₀.nPast m waiting es ∧ Event.step phase n c ∈ es) w
  active : w.activeClIdx = 0
  nPast : w.nPast = n

/-- The state between two passes, at a past of `n` columns. -/
structure Between (w₀ : World Int32 ρ I) (n : ℕ) (w : World Int32 ρ I) : Prop where
  since : Since w₀ (Tracked w₀.nPast n none) w
  active : w.activeClIdx = 0
  nPast : w.nPast = n

/-- The state after an exception. -/
structure Broken (w₀ : World Int32 ρ I) (w : World Int32 ρ I) : Prop where
  since : ∃ m waiting, Since w₀ (Tracked w₀.nPast m waiting) w
  active : w.activeClIdx = 0

theorem InPass.broken (h : InPass w₀ phase n c m waiting w) : Broken w₀ w :=
  ⟨⟨m, waiting, h.since.mono fun _ hes => hes.1⟩, h.active⟩

theorem InPass.plain {w' : World Int32 ρ I} (h : InPass w₀ phase n c m waiting w)
    (ht : w'.trace = w.trace) (ha : w'.activeClIdx = w.activeClIdx) (hn : w'.nPast = w.nPast) :
    InPass w₀ phase n c m waiting w' := by
  refine ⟨?_, ha.trans h.active, hn.trans h.nPast⟩
  unfold Since
  rw [ht]
  exact h.since

theorem InPass.execGraph (hw : ∀ s, waiting = some s → s = (phase, n, c)) (s : ℕ)
    (tokens : List Int32) (input : ExecIn I) (err : Err) :
    Triple (InPass w₀ phase n c m waiting)
      (execGraph spec env s phase 0 ⟨tokens, n, c, phase⟩ input err)
      (fun _ => InPass w₀ phase n c m none) (fun _ => Broken w₀) := by
  intro w h
  have hlog : InPass w₀ phase n c m none
      (w.log (.exec ⟨phase, s, 0, ⟨tokens, n, c, phase⟩, input, w.produced⟩)) :=
    ⟨h.since.log fun es hes => ⟨hes.1.logExec rfl hes.2 hw, List.mem_cons_of_mem _ hes.2⟩,
      h.active, h.nPast⟩
  unfold Geniex.execGraph
  dsimp only
  cases env.exec w.tick _ _ with
  | none => exact InPass.broken (hlog.plain rfl rfl rfl)
  | some out => exact hlog.plain rfl rfl rfl

/-- A shard of the pass, up to its execution. -/
theorem InPass.runShard (hw : ∀ s, waiting = some s → s = (phase, n, c)) (s : ℕ)
    (tokens : List Int32) (mask : ℕ → ℤ) (positions : List Int32) (msg : String) :
    Triple (InPass w₀ phase n c m waiting)
      (SSDConfig.runShard spec env phase 0 ⟨tokens, n, c, phase⟩ mask positions msg s)
      (fun _ => InPass w₀ phase n c m none) (fun _ => Broken w₀) :=
  Triple.bind (SSDConfig.writeCosSin_keeps fun _ h => h.broken) fun _ =>
    Triple.get fun _ hw₁ => (InPass.execGraph hw s tokens _ _).pre fun _ h => h ▸ hw₁

/-- A write-back of the pass. -/
theorem InPass.updateKV (h : InPass w₀ phase n c m none w) (s : ℕ) :
    InPass w₀ phase n c m none (updateKV spec s phase n (committed phase c) w) := by
  refine ⟨?_, by rw [updateKV_activeClIdx, h.active], by rw [updateKV_nPast, h.nPast]⟩
  unfold Geniex.updateKV
  split_ifs
  · exact h.since
  · have hlog : Since w₀ (fun es => Tracked w₀.nPast m none es ∧ Event.step phase n c ∈ es)
        (w.log (.kvWrite ⟨phase, s, w.activeClIdx, n, committed phase c⟩)) :=
      h.since.log fun es hes =>
        ⟨hes.1.logWrite h.active (Or.inl ⟨c, hes.2, rfl⟩), List.mem_cons_of_mem _ hes.2⟩
    exact hlog

/-- The shards of a pass, of which the first one executes first. -/
theorem InPass.shards {body : ℕ → Run Int32 ρ I Unit}
    (h : ∀ s waiting, (∀ x, waiting = some x → x = (phase, n, c)) →
      Triple (InPass w₀ phase n c m waiting) (body s) (fun _ => InPass w₀ phase n c m none)
        (fun _ => Broken w₀)) :
    Triple (InPass w₀ phase n c m (some (phase, n, c))) (Prog.forRange spec.shardCount body)
      (fun _ => InPass w₀ phase n c m none) (fun _ => Broken w₀) := by
  have hloop := Triple.forRange (E := fun _ : Err => Broken w₀)
    (I := fun s => InPass w₀ phase n c m (if s = 0 then some (phase, n, c) else none))
    (n := spec.shardCount) fun s _ =>
      (h s _ (by split_ifs <;> simp)).post fun _ w hw => by rwa [if_neg (Nat.succ_ne_zero s)]
  rwa [if_pos rfl, if_neg spec.shardCount_pos.ne'] at hloop

/-- A step starts at its past. -/
theorem Between.start (h : Between w₀ n w) (phase : Phase) (c : ℕ) :
    InPass w₀ phase n c (n + committed phase c) (some (phase, n, c))
      (w.log (.step phase n c)) :=
  ⟨h.since.log fun _ hes => ⟨hes.logStep (by omega), List.mem_cons_self⟩, h.active, h.nPast⟩

end Passes

section Passes

variable {w₀ w : World Int32 ρ I} {n : ℕ}

theorem prefillShard_inPass (chunk : List Int32) (m s : ℕ) (mask : ℕ → ℤ)
    (positions : List Int32) (waiting : Option (Phase × ℕ × ℕ))
    (hw : ∀ x, waiting = some x → x = (.prefill, n, chunk.length)) :
    Triple (InPass w₀ .prefill n chunk.length m waiting)
      (SSDConfig.prefillShard spec env 0 ⟨chunk, n, chunk.length, .prefill⟩ mask positions s)
      (fun _ => InPass w₀ .prefill n chunk.length m none) (fun _ => Broken w₀) := by
  refine Triple.bind (InPass.runShard hw s chunk _ _ _) fun _ => ?_
  refine Triple.bind (R := fun _ => InPass w₀ .prefill n chunk.length m none)
    (Triple.modify fun w h => h.updateKV s) fun _ => ?_
  exact Triple.when (fun _ => Triple.modify fun w h => h.plain rfl rfl rfl) fun _ w h => h

theorem prefillChunk_between (chunk : List Int32) :
    Triple (Between w₀ n) (ssd.prefillChunk spec env chunk)
      (fun _ => Between w₀ (n + chunk.length)) (fun _ => Broken w₀) := by
  refine Triple.get fun w₁ hw₁ => ?_
  rw [hw₁.active, hw₁.nPast]
  refine Triple.bind (Triple.modify fun w h => ?_) fun _ =>
    Triple.bind (InPass.shards fun s waiting hw => prefillShard_inPass chunk (n + chunk.length) s _ _ waiting hw)
      fun _ => Triple.modify fun w h => ?_
  · subst h
    exact hw₁.start .prefill chunk.length
  · exact ⟨h.since.mono fun _ hes => hes.1, h.active, congrArg (· + chunk.length) h.nPast⟩

theorem prefillLoop_between (fuel : ℕ) (tokens : List Int32) (last : ℕ) :
    Triple (Between w₀ n) (ssd.prefillLoop spec env fuel tokens last)
      (fun _ w => ∃ n', Between w₀ n' w) (fun _ => Broken w₀) := by
  induction fuel generalizing n tokens last with
  | zero => exact Triple.pure fun w h => ⟨n, h⟩
  | succ fuel ih =>
    exact Triple.ite (fun _ => Triple.pure fun w h => ⟨n, h⟩) fun _ =>
      Triple.bind (prefillChunk_between _) fun _ => ih _ _

theorem treePass_inPass (tokens : List Int32) (kvPrefixOffset : ℕ) :
    Triple (Between w₀ n) (ssd.runShardsWithTreeMask spec env tokens kvPrefixOffset)
      (fun _ => InPass w₀ .decode n tokens.length (n + 1) none) (fun _ => Broken w₀) := by
  refine Triple.get fun w₁ hw₁ => ?_
  dsimp only
  rw [hw₁.active, hw₁.nPast]
  refine Triple.bind (Triple.modify fun w h => ?_) fun _ => InPass.shards fun s waiting hw => ?_
  · subst h
    exact hw₁.start .decode tokens.length
  · exact Triple.bind (InPass.runShard hw s tokens _ _ _) fun _ =>
      Triple.when (fun _ => Triple.modify fun w h => h.plain rfl rfl rfl) fun _ w h => h

theorem initialStep_between (first : Int32) :
    Triple (Between w₀ n) (ssd.initialStep spec env first) (fun _ => Between w₀ (n + 1))
      (fun _ => Broken w₀) := by
  set c := (first :: ssd.forecastRow spec.vocabSize).length with hc
  refine Triple.bind (treePass_inPass _ 1) fun _ => Triple.bind
    (R := fun _ => InPass w₀ .decode n c (n + 1) none) (Triple.modify fun w h => ?_) fun _ =>
    Triple.modify fun w h =>
      ⟨h.since.mono fun _ hes => hes.1, h.active, congrArg (· + 1) h.nPast⟩
  induction spec.shardCount with
  | zero => exact h
  | succ k ih =>
    have hk : InPass w₀ .decode n c (n + 1) none (updateKV spec k .decode n 1 _) := ih.updateKV k
    show InPass w₀ .decode n c (n + 1) none (updateKV spec k .decode _ 1 _)
    rwa [ih.nPast]

end Passes

/-! ## One step of the loop -/

namespace SSDConfig

variable {eos : Int32 → Bool} {answer : ℕ → Int32} {tree : List Int32}

theorem genLevels_length (branches : List ℕ) (start : ℕ) (tree : List (Option ℕ))
    (nodes : List ℕ) : tree.length ≤ (genLevels branches start tree nodes).1.length := by
  induction branches generalizing start tree nodes with
  | nil => exact le_rfl
  | cons b bs ih =>
    refine le_trans ?_ (ih _ _ _)
    rw [List.length_append]
    omega

theorem numDraftNodes_pos (ssd : SSDConfig) : 0 < ssd.numDraftNodes :=
  lt_of_lt_of_le Nat.zero_lt_one (genLevels_length ssd.branches 0 [none] [])

/-- A walk of the tree: as many tokens as rows, the rows ascending. -/
structure Walk (bound : ℕ) (accepted : List Int32 × List ℕ) : Prop where
  length : accepted.1.length = accepted.2.length
  ascending : accepted.2.Pairwise (· < ·)
  bounded : ∀ i ∈ accepted.2, i < bound
  ne : accepted.2 ≠ []

theorem Walk.mono {i j : ℕ} {accepted : List Int32 × List ℕ} (h : Walk i accepted) (hij : i ≤ j) :
    Walk j accepted :=
  ⟨h.length, h.ascending, fun k hk => (h.bounded k hk).trans_le hij, h.ne⟩

/-- The next row joins the walk. -/
theorem Walk.extend {i : ℕ} {tokens : List Int32} {ids : List ℕ} (h : Walk i (tokens, ids))
    (t : Int32) : Walk (i + 1) (tokens ++ [t], ids ++ [i]) := by
  refine ⟨by simp [h.length], ?_, ?_, by simp⟩
  · rw [List.pairwise_append]
    refine ⟨h.ascending, List.pairwise_singleton _ _, fun a ha b hb => ?_⟩
    rw [List.mem_singleton.mp hb]
    exact h.bounded a ha
  · intro j hj
    rcases List.mem_append.mp hj with hj | hj
    · exact (h.bounded j hj).trans (Nat.lt_succ_self i)
    · rw [List.mem_singleton.mp hj]
      exact Nat.lt_succ_self i

theorem walk_root (t : Int32) : Walk 1 ([t], [0]) := ⟨rfl, by simp, by simp, by simp⟩

variable (ssd eos answer tree) in
theorem verifyFrom_walk (n : ℕ) : ∀ (i : ℕ) (tokens : List Int32) (ids : List ℕ),
    Walk i (tokens, ids) →
      Walk (i + n) (ssd.verifyFrom eos answer tree (List.range' i n) tokens ids) := by
  induction n with
  | zero => exact fun i tokens ids h => h
  | succ n ih =>
    intro i tokens ids h
    rw [List.range'_succ, verifyFrom, show i + (n + 1) = i + 1 + n by omega]
    split_ifs
    · exact (h.extend _).mono (by omega)
    · exact ih _ _ _ (h.extend _)
    · exact ih _ _ _ (h.mono (by omega))

theorem verifyDraftTree_walk :
    Walk ssd.numDraftNodes (ssd.verifyDraftTree eos answer tree) := by
  have hpos := ssd.numDraftNodes_pos
  unfold verifyDraftTree
  split_ifs
  · exact (walk_root _).mono hpos
  · have h := verifyFrom_walk ssd eos answer tree (ssd.numDraftNodes - 1) 1 _ _
      (walk_root (answer 0))
    rwa [Nat.add_sub_cancel' hpos] at h

/-- The rows that are selected are the accepted ones, in order. -/
theorem filter_selected (spec : LLMSpec) {accepted : List Int32 × List ℕ}
    (h : Walk ssd.numDraftNodes accepted) :
    (List.range (totalSsdTokens ssd spec)).filter (· ∈ accepted.2) = accepted.2 := by
  have hle : ssd.numDraftNodes ≤ totalSsdTokens ssd spec := Nat.le_add_right _ _
  apply List.Pairwise.eq_of_mem_iff (List.pairwise_lt_range.filter _) h.ascending
  intro i
  simp only [List.mem_filter, List.mem_range, decide_eq_true_eq, and_iff_right_iff_imp]
  exact fun hi => (h.bounded i hi).trans_le hle

/-- As many rows are selected as tokens are accepted. -/
theorem count_selectedRows {accepted : List Int32 × List ℕ}
    (h : Walk ssd.numDraftNodes accepted) :
    (selectedRows ssd spec accepted.2).count true = accepted.1.length := by
  rw [h.length]
  conv_rhs => rw [← filter_selected spec h]
  rw [selectedRows, List.count_eq_countP, List.countP_map, ← List.countP_eq_length_filter]
  congr 1
  funext i
  simp

end SSDConfig

section Call

variable {w₀ w : World Int32 ρ I} {n : ℕ}

/-- The commit of the path that was accepted last. -/
theorem selectiveKVUpdate_log {path : List Int32} {selected : List Bool}
    (h : Since w₀ (fun es => Tracked w₀.nPast (n + path.length) none es ∧
      Event.accepted n path ∈ es) w) (hn : w.nPast = n)
    (hcount : selected.count true = path.length) :
    Since w₀ (Tracked w₀.nPast (n + path.length) none)
      (SSDConfig.selectiveKVUpdate spec selected w) := by
  obtain ⟨es, ht, htrack, hmem⟩ := h
  have hlogs : ∀ shards : List ℕ, Tracked w₀.nPast (n + path.length) none
      (shards.map (fun s => .kvWrite ⟨.decode, s, 0, n, path.length⟩) ++ es) := by
    intro shards
    induction shards with
    | nil => exact htrack
    | cons s shards ih =>
      exact ih.logWrite rfl (Or.inr ⟨path, List.mem_append_right _ hmem, rfl⟩)
  refine ⟨_, ?_, hlogs (SSDConfig.kvShards spec).reverse⟩
  rw [List.append_assoc, ← ht, ← hn, ← hcount]
  rfl

theorem treeStep_between (tree : List Int32) :
    Triple (Between w₀ n) (ssd.treeStep spec env tree) (fun _ w => ∃ n', Between w₀ n' w)
      (fun _ => Broken w₀) := by
  refine Triple.bind (treePass_inPass _ _) fun _ => Triple.get fun w₁ hw₁ => ?_
  set accepted := ssd.verifyDraftTree (isEos spec) (SSDConfig.answerAt spec w₁) tree
  have hwalk : SSDConfig.Walk ssd.numDraftNodes accepted := SSDConfig.verifyDraftTree_walk
  have hlen : 0 < accepted.1.length := by
    rw [hwalk.length]
    exact List.length_pos_of_ne_nil hwalk.ne
  refine Triple.bind (R := fun _ w => Since w₀ (fun es =>
      Tracked w₀.nPast (n + accepted.1.length) none es ∧ Event.accepted n accepted.1 ∈ es) w ∧
        w.activeClIdx = 0 ∧ w.nPast = n) (Triple.modify fun w h => ?_) fun _ =>
    Triple.bind (R := fun _ w => Since w₀ (Tracked w₀.nPast (n + accepted.1.length) none) w ∧
      w.activeClIdx = 0 ∧ w.nPast = n) (Triple.modify fun w h => ?_) fun _ =>
    Triple.bind (R := fun _ w => ∃ n', Between w₀ n' w) (Triple.modify fun w h => ?_) fun _ =>
    Triple.pure fun _ h => h
  · subst h
    refine ⟨hw₁.since.log fun es hes => ⟨?_, ?_⟩, hw₁.active, hw₁.nPast⟩
    · rw [hw₁.nPast]
      exact hes.1.logAccepted (by omega)
    · rw [hw₁.nPast]
      exact List.mem_cons_self
  · exact ⟨selectiveKVUpdate_log h.1 h.2.2 (SSDConfig.count_selectedRows hwalk), h.2⟩
  · exact ⟨_, h.1, h.2.1, congrArg (· + accepted.1.length) h.2.2⟩

theorem Between.log (h : Between w₀ n w) {e : Event Int32 I}
    (he : match e with
      | .step _ _ _ | .exec _ | .kvWrite _ | .accepted _ _ => False
      | _ => True) : Between w₀ n (w.log e) :=
  ⟨h.1.log fun _ hes => hes.logOther he, h.active, h.nPast⟩

theorem Between.broken (h : Between w₀ n w) : Broken w₀ w := ⟨⟨n, none, h.1⟩, h.active⟩

theorem speak_between (callback : List Int32 → CallbackAnswer) (path out : List Int32) :
    Triple (Between w₀ n) (SSDConfig.speak spec callback path out) (fun _ => Between w₀ n)
      (fun _ => Broken w₀) :=
  SSDConfig.speak_kept (fun _ _ h => h.log trivial) (fun _ _ h => h.log trivial)
    (fun _ h => h.broken) callback path out

theorem decodeLoop_between (maxTokens : Int32) (callback : List Int32 → CallbackAnswer) (k : ℕ)
    (tree out : List Int32) :
    Triple (Between w₀ n) (ssd.decodeLoop spec env maxTokens callback k tree out)
      (fun _ w => ∃ n', Between w₀ n' w) (fun _ => Broken w₀) := by
  induction k generalizing n tree out with
  | zero => exact Triple.pure fun w h => ⟨n, h⟩
  | succ k ih =>
    refine Triple.get fun w₁ hw₁ => Triple.pre (Triple.ite (fun _ => Triple.pure fun w h => ⟨n, h⟩)
      fun _ => ?_) fun w h => h ▸ hw₁
    refine Triple.bind (treeStep_between tree) fun accepted => Triple.of_exists fun n' =>
      Triple.bind (speak_between callback accepted.1 out) fun said =>
      Triple.ite (fun _ => Triple.pure fun w h => ⟨n', h⟩) fun _ => ?_
    exact Triple.get fun w₂ hw₂ => (ih _ _).pre fun w h => h ▸ hw₂

theorem sampleNextToken_between (phase : Phase) (off : ℕ) :
    Triple (Between w₀ n) (sampleNextToken spec env phase off) (fun _ => Between w₀ n)
      (fun _ => Broken w₀) := by
  refine Triple.get fun w₁ hw₁ => ?_
  cases w₁.sampler with
  | none =>
    exact Triple.bind (Triple.modify fun w h => (h ▸ hw₁ : Between w₀ n w).log trivial) fun _ =>
      Triple.pure fun _ h => h
  | some s =>
    refine Triple.bind (R := fun _ => Between w₀ n) (Triple.modify fun w h => ?_) fun _ =>
      Triple.bind (Triple.modify fun w h => h.log trivial) fun _ => Triple.pure fun _ h => h
    subst h
    have h₂ := (hw₁.log (e := .sampler (.sample (readLastLogits spec phase off w))) trivial).log
      (e := .sampler (.accept (Token.ofId (env.sample s.cfg s.calls
        (readLastLogits spec phase off w))))) trivial
    exact ⟨h₂.1, h₂.active, h₂.nPast⟩

theorem generateBody_between (prompt : List Int32) (cfg : GenerationConfig)
    (callback : List Int32 → CallbackAnswer) :
    Triple (Between w₀ n) (ssd.generateBody spec env prompt cfg callback)
      (fun _ w => ∃ n', Between w₀ n' w) (fun _ => Broken w₀) := by
  refine Triple.bind (R := fun _ w => ∃ n', Between w₀ n' w) ?_ fun first =>
    Triple.of_exists fun n' => Triple.ite (fun _ => Triple.pure fun w h => ⟨n', h⟩) fun _ => ?_
  · refine Triple.get fun w₁ hw₁ => Triple.bind (R := fun _ => Between w₀ n)
      (Triple.modify fun w h => (h ▸ hw₁ : Between w₀ n w).log trivial) fun _ =>
      Triple.bind (prefillLoop_between _ _ _) fun last => Triple.of_exists fun n' => ?_
    exact Triple.bind (R := fun _ => Between w₀ n')
      (Triple.modify fun w h => ⟨h.1, h.active, h.nPast⟩) fun _ =>
      (sampleNextToken_between _ _).post fun _ w h => ⟨n', h⟩
  · refine Triple.bind (R := fun _ => Between w₀ n') (Triple.modify fun w h => h.log trivial)
      fun _ => ?_
    cases callback [first] with
    | stop => exact Triple.pure fun w h => ⟨n', h⟩
    | throw => exact Triple.throw fun _ h => h.broken
    | «continue» =>
      exact Triple.bind (initialStep_between first) fun _ => Triple.get fun w₁ hw₁ =>
        (decodeLoop_between _ _ _ _ _).pre fun w h => h ▸ hw₁

end Call

/-! ## Runs -/

section Runs

variable {w₀ w w₁ : World Int32 ρ I} {prompt : List Int32} {cfg : GenerationConfig}
  {callback : List Int32 → CallbackAnswer} {r : Except Err (List Int32)}

theorem Between.of_active (h : w.activeClIdx = 0) : Between w w.nPast w :=
  ⟨Since.start Tracked.nil, h, rfl⟩

/-- The instance stays at the first context length. -/
theorem SSDReachable.active (h : SSDReachable spec ssd env w) : w.activeClIdx = 0 := by
  induction h with
  | init => rfl
  | generate prompt cfg callback h hrun ih =>
    rename_i w w' r
    have hcall : Triple (Between w w.nPast) (ssd.generate spec env prompt cfg callback)
        (fun _ v => v.activeClIdx = 0) (fun _ v => v.activeClIdx = 0) := by
      refine Triple.bind ((generateBody_between prompt cfg callback).conseq (fun _ h => h)
        (fun _ _ h => h) fun _ _ h => h.active) fun out => ?_
      refine Triple.bind (R := fun _ v => v.activeClIdx = 0) (Triple.modify fun v hv => ?_) fun _ =>
        Triple.pure fun _ hv => hv
      obtain ⟨n, hv⟩ := hv
      exact hv.active
    have hend := hcall.snd (I := fun v => v.activeClIdx = 0) (fun _ _ h => h) (fun _ _ h => h)
      (Between.of_active ih)
    rwa [hrun] at hend
  | reset => rfl
  | load h hv ih ihv => rw [loaded_activeClIdx (by omega), ihv]

/-- The exit restride keeps the history if and only if it fits the prefill stride. -/
theorem restrideKeeps_iff : RestrideKeeps spec w ↔ w.nPast ≤ spec.kvLen .prefill w.activeClIdx := by
  refine ⟨fun h => h.1, fun hle => ⟨hle, fun t ht r hr c hc b hb => ?_⟩⟩
  have hp := hc.trans_le hle
  exact reshapeAll_cell ht hr hc (hp.trans_le (spec.kvLen_prefill_le _)) hp hb

/-- **When the tree decoder stays inside its buffers.** For every call from any reachable state,
however it ends: if its steps fit, every pass and every write-back stays inside its buffers. If the
call returns, its steps fit if and only if that is so and the exit restride keeps the history. -/
theorem insideBuffers_iff (h : SSDReachable spec ssd env w₀)
    (hrun : ssd.generateBody spec env prompt cfg callback w₀ = (r, w₁)) :
    ∃ es, w₁.trace = es ++ w₀.trace ∧ (StepsFit spec w₀.nPast es → LogInside spec es) ∧
      ∀ out, r = .ok out →
        ssd.generate spec env prompt cfg callback w₀ =
          (.ok out, restrideActive spec .decode .prefill w₁.nPast w₁) ∧
        (LogInside spec es ∧ RestrideKeeps spec w₁ ↔ StepsFit spec w₀.nPast es) := by
  have hbody : Triple (Between w₀ w₀.nPast) (ssd.generateBody spec env prompt cfg callback)
      (fun _ w => ∃ n', Between w₀ n' w) (fun _ => Broken w₀) :=
    generateBody_between prompt cfg callback
  have hstart : Between w₀ w₀.nPast w₀ := Between.of_active h.active
  cases r with
  | error e =>
    obtain ⟨m, waiting, es, ht, hes⟩ := (hbody.error hstart hrun).since
    exact ⟨es, ht, fun hfit => hes.inside hfit, nofun⟩
  | ok out =>
    obtain ⟨n, ⟨es, ht, hes⟩, hactive, hn⟩ := hbody.ok hstart hrun
    refine ⟨es, ht, fun hfit => (hes.fit_iff.mp hfit).1, fun out' hout => ?_⟩
    obtain rfl : out = out' := by simpa using hout
    refine ⟨bind_ok hrun _, ?_⟩
    rw [hes.fit_iff, restrideKeeps_iff, hactive, hn]

/-- A new instance over buffers of zeros. -/
def tinySSDWorld (spec : LLMSpec) : World Int32 Unit Unit :=
  tinySSD.initWorld spec () (fun _ _ => 0) (fun _ => ⟨fun _ _ => 0, fun _ => 0, fun _ => 0⟩)
    fun _ _ => 0

/-- A call of the tree decoder up to the exit restride, with a callback that never stops it. -/
def tinySSDBody (prompt : List Int32) (n : Int32) (spec : LLMSpec) :
    Except Err (List Int32) × World Int32 Unit Unit :=
  tinySSD.generateBody spec (tinyEnv 0 0) prompt (tinyCfg n) (fun _ => .continue)
    (tinySSDWorld spec)

/-- Four emitted tokens after a prompt of two, at a context length of 16. -/
theorem insideBuffers_iff_tiny :
    ∃ es, (tinySSDBody [0, 0] 4 (tinySpec [16] 4 4)).2.trace =
        es ++ (tinySSDWorld (tinySpec [16] 4 4)).trace ∧
      (LogInside (tinySpec [16] 4 4) es ∧
          RestrideKeeps (tinySpec [16] 4 4) (tinySSDBody [0, 0] 4 (tinySpec [16] 4 4)).2 ↔
        StepsFit (tinySpec [16] 4 4) (tinySSDWorld (tinySpec [16] 4 4)).nPast es) := by
  have hreach : SSDReachable (tinySpec [16] 4 4) tinySSD (tinyEnv 0 0)
      (tinySSDWorld (tinySpec [16] 4 4)) := SSDReachable.init _ _ _ _
  have hout : (tinySSDBody [0, 0] 4 (tinySpec [16] 4 4)).1 = .ok [1, 1, 1, 1] := by decide +kernel
  have hrun : tinySSD.generateBody (tinySpec [16] 4 4) (tinyEnv 0 0) [0, 0] (tinyCfg 4)
      (fun _ => .continue) (tinySSDWorld (tinySpec [16] 4 4)) =
      (.ok [1, 1, 1, 1], (tinySSDBody [0, 0] 4 (tinySpec [16] 4 4)).2) := eq_of_result hout
  obtain ⟨es, ht, -, h⟩ := insideBuffers_iff hreach hrun
  exact ⟨es, ht, (h _ rfl).2⟩

/-- At a context length of 8 the loop guard lets a call commit a column past the row, and the
prefill writes a prompt of five tokens past its row. -/
theorem ssd_writes_past_row :
    ((kvWrites (tinySSDBody [0, 0] 4 (tinySpec [8] 4 4)).2.trace).all
        (fun x => decide (InRow (tinySpec [8] 4 4) x)) = false ∧
      ((kvWrites (tinySSDBody [0, 0, 0, 0, 0] 0 (tinySpec [8] 4 4)).2.trace).all
        fun x => decide (InRow (tinySpec [8] 4 4) x)) = false) := by
  decide +kernel

end Runs

end Geniex
