import Geniex.CB.Budget
import Geniex.CB.Streaming

/-!
# Requests

* `generate`: the override of `LLMModel::generate`, a batch of one session.
* `generateBatch_answers`: a batch of requests with distinct ids that fits returns, and every
  request has got all of its answers, in its own session and through the callback.
* `generate_answers`: `generate` returns the answers to its prompt, whatever ran before.
* `batch_as_alone`: so a request gets in a batch what it would get alone.
-/

namespace Geniex.CB

open KVCacheManager Scheduler Prog

variable {I : Type} {spec : LLMSpec} {env : BatchEnv I} {next : List Pair → Int32}
  {holds : ℕ → Column → List Pair → Prop} {σ σ' : BatchState}

/-! ## `generate` -/

section Generate

variable (spec) (env)

/-- `generate(prompt_tokens, gen_cfg, token_callback)`, for at most `fuel` rounds: the tokens of the
only session. The caller's scheduler and manager are others; the buffer is the same. -/
def generate (fuel : ℕ) (prompt : List Int32) (maxTokens : ℤ) :
    Prog BatchState String (Option (List Int32)) := fun σ =>
  match generateBatch spec env fuel
      { σ with sessions := addSession [] "s0" prompt maxTokens, segs := [] } with
  | (.ok again, σ') =>
    (.ok (if again = true then
        match getSession σ'.sessions "s0" with
        | some s => some s.generatedTokens
        | none => some []
      else none), { σ' with sessions := σ.sessions, segs := σ.segs })
  | (.error e, σ') => (.error e, { σ' with sessions := σ.sessions, segs := σ.segs })

end Generate

/-! ## Failures -/

/-- `generateBatch` throws only when a graph fails. -/
theorem generateBatch_throws {T : String → Prop} (fuel : ℕ)
    (h : ∀ σ : BatchState, ∀ ctx, ∀ s e σ', batchShard spec env ctx s σ = (.error e, σ') → T e) :
    Throws T (generateBatch spec env fuel) := by
  have hshard : ∀ ctx s, Throws T (batchShard spec env ctx s) := by
    intro ctx s σ _
    rcases hrun : batchShard spec env ctx s σ with ⟨r, σ'⟩
    cases r with
    | ok _ => trivial
    | error e => exact h σ ctx s e σ' hrun
  induction fuel with
  | zero => exact Throws.pure _
  | succ fuel ih =>
    refine Throws.bind (Throws.get fun σ => Throws.ite (fun _ => Throws.pure _) fun _ =>
      Throws.ite (fun _ => (Throws.modify _).bind fun _ => Throws.pure _) fun _ =>
      (Throws.modify _).bind fun _ => Throws.get fun _ => ?_) fun _ =>
      Throws.ite (fun _ => ih) fun _ => Throws.pure _
    exact (Throws.forRange (hshard _) _).bind fun _ => (Throws.modify _).bind fun _ => Throws.pure _

/-- A run whose graphs do not fail does not throw. -/
theorem generateBatch_ok (hgraphs : ∀ t g x, (env.exec t g x).isSome = true) (fuel : ℕ)
    (σ : BatchState) : ∃ again σ', generateBatch spec env fuel σ = (.ok again, σ') := by
  rcases hrun : generateBatch spec env fuel σ with ⟨r, σ'⟩
  cases r with
  | ok again => exact ⟨again, σ', rfl⟩
  | error e =>
    refine ((generateBatch_throws (T := fun _ => False) fuel ?_).error hrun).elim
    intro σ ctx s e σ' hshard
    unfold batchShard at hshard
    dsimp only at hshard
    obtain ⟨out, hout⟩ := Option.isSome_iff_exists.mp (hgraphs σ.tick
      (spec.graphIndex .prefill s σ.activeClIdx) (batchInput spec env σ.activeClIdx ctx s
        (σ.hiddenIn (spec.graphIndex .prefill s σ.activeClIdx)) σ.kv))
    rw [hout] at hshard
    cases congrArg Prod.fst hshard

/-! ## A batch of requests -/

/-- The columns that a request can come to hold. -/
def Request.demand (r : Request) : ℕ := r.session.demand

variable {rs : List Request}

/-- The service starts with any buffer. -/
theorem settled_enqueue (hids : (rs.map (·.id)).Nodup) (hcl : σ.activeClIdx < spec.numCl) :
    Settled spec next holds (enqueue rs σ) := by
  have hsound : ∀ s ∈ rs.map Request.session, Sound spec next s := by
    intro s hs
    obtain ⟨r, -, rfl⟩ := List.mem_map.mp hs
    exact sound_new r.id r.query r.maxTokens
  refine ⟨⟨hcl, ?_, List.nodup_nil, trivial, fun _ h => (by cases h), hsound,
    fun _ h => (by cases h), ?_⟩, trivial, fun _ h => (by cases h)⟩
  · show ((rs.map Request.session).map _).Nodup
    rw [List.map_map]
    exact hids
  · intro s hs _ hpos
    obtain ⟨r, -, rfl⟩ := List.mem_map.mp hs
    exact absurd hpos (Nat.lt_irrefl 0)

theorem totalDemand_enqueue (rs : List Request) (σ : BatchState) :
    totalDemand (enqueue rs σ).sessions = (rs.map Request.demand).sum := by
  unfold totalDemand enqueue
  rw [List.map_map]
  rfl

theorem totalWork_enqueue (rs : List Request) (σ : BatchState) :
    totalWork (enqueue rs σ).sessions = (rs.map Request.demand).sum := by
  unfold totalWork enqueue
  rw [List.map_map]
  rfl

/-- A request after its batch: a session of its own that is completed and has got all that the
request is owed, each token of it reported once. -/
structure Fulfilled (spec : LLMSpec) (next : List Pair → Int32) (calls : List (String × Int32))
    (r : Request) (s : Session) : Prop where
  request : s.request = r.session.request
  completed : s.status = .completed
  tokens : s.generatedTokens = r.owed spec next
  heard : streamOf r.id calls = r.owed spec next

theorem Hears.fulfilled {calls : List (String × Int32)} {r : Request} {s : Session}
    (h : Hears calls r.session s) (hsound : Sound spec next s) (hs : s.status = .completed) :
    Fulfilled spec next calls r s := by
  have hopening : s.opening = r.session.opening := by
    have hquery : s.queryTokens = r.session.queryTokens := congrArg (fun q => q.2.1) h.request
    unfold Session.opening
    rw [hquery]
  have hlimit : s.limit = r.session.limit := congrArg (fun q => q.2.2.toNat) h.request
  have htokens : s.generatedTokens = r.owed spec next := by
    rw [hsound.done hs, hlimit, hopening]
    rfl
  exact ⟨h.request, hs, htokens, h.tokens.symm.trans htokens⟩

/-- A batch of requests that fits fulfills all of them. -/
theorem generateBatch_answers (o : CausalOracle spec env next holds)
    (hgraphs : ∀ t g x, (env.exec t g x).isSome = true) (hids : (rs.map (·.id)).Nodup)
    (hroom : (rs.map Request.demand).sum ≤ spec.maxCl - spec.seqLenPrefill)
    (hcl : σ.activeClIdx < spec.numCl) {fuel : ℕ} (hfuel : (rs.map Request.demand).sum < fuel) :
    ∃ σ' calls, generateBatch spec env fuel (enqueue rs σ) = (.ok true, σ') ∧
      σ'.streamed = σ.streamed ++ calls ∧
      List.Forall₂ (Fulfilled spec next calls) rs σ'.sessions := by
  have hsettled : Settled spec next holds (enqueue rs σ) := settled_enqueue hids hcl
  have hfits : Fitting spec env fuel (enqueue rs σ) :=
    fitting_of_demand o fuel _ hsettled ((totalDemand_enqueue rs σ).le.trans hroom)
  have horder : Orderly (enqueue rs σ).sessions :=
    ⟨hsettled.serving.ids, fun s hs => (hsettled.serving.sound s hs).toTracked⟩
  obtain ⟨again, σ', hrun⟩ : ∃ again σ',
      generateBatch spec env fuel (enqueue rs σ) = (.ok again, σ') :=
    generateBatch_ok hgraphs fuel (enqueue rs σ)
  have hends : (generateBatch spec env fuel (enqueue rs σ)).1 ≠ .ok false :=
    generateBatch_ends horder ((totalWork_enqueue rs σ).le.trans_lt hfuel)
  obtain rfl : again = true := by
    cases again with
    | true => rfl
    | false =>
      rw [hrun] at hends
      exact absurd rfl hends
  have hserving := generateBatch_serving o fuel _ hsettled.serving hfits
  have hstreams : Streams (enqueue rs σ) (generateBatch spec env fuel (enqueue rs σ)).2 :=
    generateBatch_streams fuel hsettled.serving.ids
  rw [hrun] at hserving hstreams
  have hidle := generateBatch_idle hrun
  obtain ⟨calls, hcalls, hss⟩ := hstreams
  refine ⟨σ', calls, hrun, hcalls, ?_⟩
  have hdone : ∀ s ∈ σ'.sessions, s.status = .completed := by
    simpa [hasActiveSessions] using hidle
  have hall : List.Forall₂ (fun s r => (Sound spec next s ∧ s.status = .completed) ∧
      Hears calls r.session s) σ'.sessions rs :=
    (List.forall₂_and_left _ _).mpr ⟨fun s hs => ⟨hserving.sound s hs, hdone s hs⟩,
      (List.forall₂_map_left_iff.mp hss).flip⟩
  refine hall.flip.imp ?_
  rintro r s ⟨⟨hsound, hcompleted⟩, hhears⟩
  exact hhears.fulfilled hsound hcompleted

theorem Operated.orderly (h : Operated spec env σ) : Orderly σ.sessions := by
  refine ⟨h.ids, ?_⟩
  induction h with
  | fresh hsessions =>
    intro s hs
    rw [hsessions] at hs
    cases hs
  | add _ _ query maxTokens ih =>
    intro s hs
    rcases List.mem_append.mp hs with hin | hin
    · exact ih s hin
    · rw [List.mem_singleton.mp hin]
      exact tracked_new _ query maxTokens
  | remove _ _ ih => exact fun s hs => ih s (List.mem_of_mem_filter hs)
  | call h _ ih =>
    exact ((generateBatch_stable batchStep_orderly _).snd ⟨h.ids, ih⟩).tracked

/-- `generate` returns what its prompt is owed, whatever the buffer holds. -/
theorem generate_answers (o : CausalOracle spec env next holds)
    (hgraphs : ∀ t g x, (env.exec t g x).isSome = true) {r : Request}
    (hroom : r.demand ≤ spec.maxCl - spec.seqLenPrefill) (hcl : σ.activeClIdx < spec.numCl)
    {fuel : ℕ} (hfuel : r.demand < fuel) :
    (generate spec env fuel r.query r.maxTokens σ).1 = .ok (some (r.owed spec next)) := by
  -- the request that `generate` makes of its arguments
  have hsum : (([⟨"s0", r.query, r.maxTokens⟩] : List Request).map Request.demand).sum = r.demand :=
    List.sum_singleton
  have hids : (([⟨"s0", r.query, r.maxTokens⟩] : List Request).map (·.id)).Nodup :=
    List.nodup_singleton _
  obtain ⟨σ', calls, hrun, -, hall⟩ := generateBatch_answers (σ := σ) o hgraphs hids
    (hsum.le.trans hroom) hcl (hsum.trans_lt hfuel)
  cases hsessions : σ'.sessions with
  | nil =>
    rw [hsessions] at hall
    cases hall
  | cons s rest =>
    rw [hsessions] at hall
    cases hall with
    | cons hs hrest =>
      cases hrest
      have hid : s.id = "s0" := congrArg Prod.fst hs.request
      have hget : getSession σ'.sessions "s0" = some s := by
        rw [hsessions]
        simp [getSession, hid]
      unfold generate
      rw [show ({ σ with sessions := addSession [] "s0" r.query r.maxTokens, segs := [] }
        : BatchState) = enqueue [⟨"s0", r.query, r.maxTokens⟩] σ from rfl, hrun]
      dsimp only
      rw [if_pos rfl, hget]
      exact congrArg (fun l => Except.ok (some l)) hs.tokens

/-- A request in a batch is completed and gets the tokens that `generate` returns for its prompt
alone, from any state of the model. -/
theorem batch_as_alone (o : CausalOracle spec env next holds)
    (hgraphs : ∀ t g x, (env.exec t g x).isSome = true) (hids : (rs.map (·.id)).Nodup)
    (hroom : (rs.map Request.demand).sum ≤ spec.maxCl - spec.seqLenPrefill)
    (hcl : σ.activeClIdx < spec.numCl) {fuel : ℕ} (hfuel : (rs.map Request.demand).sum < fuel) :
    ∃ σ' calls, generateBatch spec env fuel (enqueue rs σ) = (.ok true, σ') ∧
      σ'.streamed = σ.streamed ++ calls ∧
      List.Forall₂ (fun r s => s.id = r.id ∧ s.status = .completed ∧
        streamOf r.id calls = s.generatedTokens ∧
        ∀ τ : BatchState, τ.activeClIdx < spec.numCl → ∀ fuel', r.demand < fuel' →
          (generate spec env fuel' r.query r.maxTokens τ).1 = .ok (some s.generatedTokens))
        rs σ'.sessions := by
  obtain ⟨σ', calls, hrun, hcalls, hall⟩ := generateBatch_answers o hgraphs hids hroom hcl hfuel
  have hdemand : ∀ r ∈ rs, r.demand ≤ spec.maxCl - spec.seqLenPrefill := fun r hr =>
    (List.single_le_sum (fun _ _ => Nat.zero_le _) _ (List.mem_map_of_mem hr)).trans hroom
  refine ⟨σ', calls, hrun, hcalls, ?_⟩
  have hboth := (List.forall₂_and_left _ _).mpr ⟨hdemand, hall⟩
  refine hboth.imp ?_
  rintro r s ⟨hr, hs⟩
  refine ⟨congrArg Prod.fst hs.request, hs.completed, hs.heard.trans hs.tokens.symm, ?_⟩
  intro τ hτ fuel' hfuel'
  rw [hs.tokens]
  exact generate_answers o hgraphs hr hτ hfuel'

theorem batch_as_alone_tiny : ∃ σ' calls,
    generateBatch sixteenColumns sumEnv 12 (enqueue tinyRequests tinyBatch) = (.ok true, σ') ∧
      σ'.streamed = tinyBatch.streamed ++ calls ∧
      List.Forall₂ (fun r s => s.id = r.id ∧ s.status = .completed ∧
        streamOf r.id calls = s.generatedTokens ∧
        ∀ τ : BatchState, τ.activeClIdx < sixteenColumns.numCl → ∀ fuel', r.demand < fuel' →
          (generate sixteenColumns sumEnv fuel' r.query r.maxTokens τ).1 =
            .ok (some s.generatedTokens))
        tinyRequests σ'.sessions :=
  batch_as_alone sumEnv_oracle (fun _ _ _ => rfl) (by decide) (by decide) (by decide) (by decide)

end Geniex.CB
