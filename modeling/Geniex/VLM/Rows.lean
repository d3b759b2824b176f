import Geniex.VLM.Runs

/-!
# Input rows belong to their tokens

A provider finds the row of a token by its position, relative to the position at which the table was
installed. `rowsBelong_iff`: in a call, the rows of an execution are those of its tokens exactly if
the execution is not a prefill after an eviction. A re-prefill takes rows of the table for tokens
that have none, and the tokens after an eviction stand before the position of their rows.
-/

namespace Geniex

open Prog

variable {τ R : Type} {spec : LLMSpec} {s : VLMSettings} {env : VLMEnv τ R}

/-- The row that serves a token: its own row of the tables, or the fallback. -/
def ownRow (origin : τ → Option ℕ) (t : τ) : RowRef :=
  match origin t with
  | some i => .table i
  | none => .fallback

/-- In each table, the row of every token is its own, and it lies in the table. -/
def RowsBelong (origin : τ → Option ℕ) (p : VLMState R) (ctx : RunContext τ) : Prop :=
  ∀ j < ctx.currLen, ∀ t ∈ ctx.tokenIds[j]?,
    (p.embProvider.rowRef ctx j = ownRow origin t ∧
      ∀ i ∈ origin t, i < p.embProvider.buffer.length) ∧
    (p.mropeProvider.rowRef ctx j = ownRow origin t ∧
      ∀ i ∈ origin t, i < p.mropeProvider.table.length) ∧
    ∀ d ∈ p.deepstackProvider, d.rowRef ctx j = ownRow origin t ∧
      ∀ i ∈ origin t, i < d.mask.length

instance (origin : τ → Option ℕ) (p : VLMState R) (ctx : RunContext τ) :
    Decidable (RowsBelong origin p ctx) := by
  unfold RowsBelong
  infer_instance

/-- In a call the rows of a chunk are those of its tokens if these stand in their place, and not if
they stand before it. -/
theorem Installed.placedRows {o L : ℕ} {p : VLMState R} (h : Installed s o L p) (hL : 0 < L)
    (hdeep : s.cls = .qwen25VL → p.deepstackProvider = none) (origin : τ → Option ℕ) :
    PlacedRows spec origin o L (RowsBelong origin p) := by
  have hmax := spec.maxCl_lt
  have hbuf : p.embProvider.buffer ≠ [] := by
    rw [← h.buffer] at hL
    exact List.ne_nil_of_length_pos hL
  have hmask : ∀ d ∈ p.deepstackProvider, d.mask.length = L ∧ d.maskOffset = o := by
    intro d hd
    cases hcls : s.cls with
    | qwen25VL =>
      rw [hdeep hcls] at hd
      cases hd
    | qwen3VL => exact h.mask hcls d hd
  refine ⟨fun tok n htok j hj t ht => ?_, fun chunk n hne hmaxL hX j hj t ht => ?_,
    fun chunk n hne ho hX hall => ?_⟩
  · obtain rfl : t = tok := by
      have := List.mem_of_getElem? ht
      simpa using this
    simp [ownRow, htok, PrecomputedEmbeddingProvider.rowRef, MRoPEInputProvider.rowRef,
      DeepstackInputProvider.rowRef, DeepstackInputProvider.IsVisualPrefill]
  · obtain ⟨h1, h2, h3⟩ := hX j t ht
    have h0 : o ≤ n := by
      have := hX 0 chunk[0] (List.getElem?_eq_getElem (List.length_pos_of_ne_nil hne))
      omega
    have hown : ownRow origin t = .table (n + j - o) := by rw [ownRow, h3]
    have hin : ∀ i ∈ origin t, i < L := by
      intro i hi
      rw [h3] at hi
      obtain rfl := Option.some.inj hi
      omega
    refine ⟨⟨?_, h.buffer ▸ hin⟩, ⟨?_, h.table ▸ hin⟩, fun d hd => ?_⟩
    · rw [PrecomputedEmbeddingProvider.rowRef, if_pos ⟨hbuf, rfl⟩, h.bufferOffset, hown,
        sizeSub_of_le h1 (by omega)]
    · rw [MRoPEInputProvider.rowRef, if_pos ⟨h.hasPositions, rfl⟩, h.positionOffset, hown,
        sizeSub_of_le h1 (by omega)]
    · obtain ⟨hlen, hoff⟩ := hmask d hd
      have hvis : d.IsVisualPrefill (⟨chunk, n, chunk.length, .prefill⟩ : RunContext τ) :=
        ⟨rfl, List.ne_nil_of_length_pos (by omega), by rw [hoff]; exact h0⟩
      refine ⟨?_, hlen ▸ hin⟩
      rw [DeepstackInputProvider.rowRef, if_pos ⟨hvis, by rw [hoff, hlen]; show n - o + j < L; omega⟩,
        hown, hoff]
      exact congrArg RowRef.table (by show n - o + j = _; omega)
  · -- the first token of the chunk is served by a row of the table that is not its own
    have hlen := List.length_pos_of_ne_nil hne
    have ht : chunk[0]? = some chunk[0] := List.getElem?_eq_getElem hlen
    have hrow := (hall 0 hlen chunk[0] ht).1.1
    rw [PrecomputedEmbeddingProvider.rowRef, if_pos ⟨hbuf, rfl⟩, h.bufferOffset, ownRow] at hrow
    cases horigin : origin chunk[0] with
    | none =>
      rw [horigin] at hrow
      cases hrow
    | some i =>
      rw [horigin] at hrow
      obtain ⟨h1, h2⟩ := hX 0 _ ht i horigin
      have hi : sizeSub (n + 0) o = i := RowRef.table.inj hrow
      rcases lt_or_ge n o with hlt | hge
      · rw [sizeSub_of_lt (by omega) (by omega)] at hi
        omega
      · rw [sizeSub_of_le (by omega) (by omega)] at hi
        omega

variable [Token τ] {w : World τ (VLMState R) (VLMInputs R)}

/-- In every call, each execution reads what the prepared providers write for its context, and all
rows belong to their tokens exactly if no prefill comes after an eviction. The tokens of the prompt
know their index (`origin`); the tokens of earlier turns and the sampled ones have none. -/
theorem rowsBelong_iff (h : VLMReachable spec s env w) (origin : τ → Option ℕ) (prompt : List τ)
    (hprompt : ∀ j t, prompt[j]? = some t → origin t = some j)
    (hhistory : ∀ t ∈ w.tokenHistory, origin t = none)
    (hsampled : ∀ x, origin (Token.ofId x) = none) (input : VLMInput) (cfg : GenerationConfig)
    (callback : List Int32 → CallbackAnswer) :
    let p := (prepareInputs s env prompt input w).2.providers
    ∃ es, (vlmGenerate spec s env prompt input cfg callback w).2.trace = es ++ w.trace ∧
      (∀ r, Event.exec r ∈ es → r.input.inputs =
        VLMState.write env.graphs p (spec.graphIndex r.phase r.shard r.clIdx) r.ctx) ∧
      ((∀ r, Event.exec r ∈ es → RowsBelong origin p r.ctx) ↔ ¬PrefillsAfterEvict es) := by
  intro p
  rcases hrun : vlmGenerate spec s env prompt input cfg callback w with ⟨r, w'⟩
  rcases vlmGenerate_cases prompt input cfg callback w w' r hrun with
    ⟨rfl, -⟩ | ⟨p', w₂, hne, hinst, hd, hprep, hgen, rfl⟩
  · have hempty : RowsLog spec env.toEnv p (RowsBelong origin p) [] := trivial
    exact ⟨[], rfl, by simp, hempty.right_iff⟩
  · obtain rfl : p = p' := by
      show (prepareInputs s env prompt input w).2.providers = _
      rw [hprep]
    have hdeep : s.cls = .qwen25VL → p.deepstackProvider = none := fun hcls =>
      hd.mpr (h.deepstack hcls)
    have hc : Counted spec { w with providers := p } := (h.reachable.install p).counted
    obtain ⟨es, ht, hrows⟩ := generate_rows spec env.toEnv cfg hc
      (hinst.placedRows (List.length_pos_of_ne_nil hne) hdeep origin) hprompt hhistory hsampled
      callback
    rw [hgen] at ht
    refine ⟨es, ?_, fun r hr => hrows.inputs hr, hrows.right_iff⟩
    cases r with
    | ok _ => exact ht
    | error _ => exact ht

/-! ## A small instance -/

/-- A token that knows its index in the prompt of the call. -/
structure TaggedToken where
  id : Int32
  origin : Option ℕ

instance : Token TaggedToken := ⟨TaggedToken.id, fun x => ⟨x, none⟩⟩

/-- A prompt, with the index of each token. -/
def tagPrompt (ids : List Int32) : List TaggedToken := ids.mapIdx fun i id => ⟨id, some i⟩

theorem tagPrompt_origin (ids : List Int32) (j : ℕ) (t : TaggedToken)
    (h : (tagPrompt ids)[j]? = some t) : t.origin = some j := by
  unfold tagPrompt at h
  rw [List.getElem?_mapIdx] at h
  obtain ⟨id, -, rfl⟩ := Option.map_eq_some_iff.mp h
  rfl

/-- A text-only model whose rows of embeddings are the token ids. -/
def tinyVLMEnv (τ : Type) : VLMEnv τ Int32 where
  exec tick _ _ := some
    ⟨fun _ _ => UInt8.ofNat (tick + 1), fun _ => 0, fun i => if i % 3 = 1 then 1 else 0⟩
  sample _ _ _ := 0
  nWorkers := 1
  clockKeeperThreads := 1
  finishes _ _ := true
  graphs _ := ⟨true, 2, true, true, 2, true, 2, fun _ => true, 2⟩
  encode _ := .error "no vision encoder"

def tinySettings (cls : VLMClass) : VLMSettings := ⟨cls, 151655, 151652, 2⟩

/-- A new instance over buffers of zeros. -/
def tinyVLM (τ : Type) (spec : LLMSpec) (cls : VLMClass) :
    World τ (VLMState Int32) (VLMInputs Int32) :=
  initWorld spec (newProviders (tinySettings cls) (fun id => id) (some 2)) (fun _ _ => 0)
    (fun _ => ⟨fun _ _ => 0, fun _ => 0, fun _ => 0⟩) fun _ _ => 0

theorem tinyVLM_reachable (τ : Type) [Token τ] (spec : LLMSpec) (cls : VLMClass) :
    VLMReachable spec (tinySettings cls) (tinyVLMEnv τ) (tinyVLM τ spec cls) := .init ..

/-- Greedy decoding of at most `n` tokens, with a sliding window that keeps one token. -/
def slidingCfg (n : Int32) : GenerationConfig :=
  { tinyCfg n with slidingWindow := true, slidingWindowNKeep := 1 }

/-- An input without an image. -/
def noImage : VLMInput := ⟨⟨[], []⟩⟩

theorem rowsBelong_iff_tiny :
    let call := vlmGenerate (tinySpec [4] 2 1) (tinySettings .qwen3VL) (tinyVLMEnv TaggedToken)
      (tagPrompt [0, 0]) noImage (tinyCfg 1) (fun _ => .continue)
      (tinyVLM TaggedToken (tinySpec [4] 2 1) .qwen3VL)
    let p := (prepareInputs (tinySettings .qwen3VL) (tinyVLMEnv TaggedToken) (tagPrompt [0, 0])
      noImage (tinyVLM TaggedToken (tinySpec [4] 2 1) .qwen3VL)).2.providers
    ∃ es, call.2.trace = es ++ [] ∧
      (∀ r, Event.exec r ∈ es → r.input.inputs = VLMState.write (tinyVLMEnv TaggedToken).graphs p
        ((tinySpec [4] 2 1).graphIndex r.phase r.shard r.clIdx) r.ctx) ∧
      ((∀ r, Event.exec r ∈ es → RowsBelong TaggedToken.origin p r.ctx) ↔
        ¬PrefillsAfterEvict es) :=
  rowsBelong_iff (tinyVLM_reachable TaggedToken (tinySpec [4] 2 1) .qwen3VL) TaggedToken.origin
    (tagPrompt [0, 0]) (tagPrompt_origin [0, 0]) (fun _ ht => nomatch ht) (fun _ => rfl) noImage
    (tinyCfg 1) fun _ => .continue

/-- An eviction in the decode loop re-prefills a sampled token, which is served by a row of the
prompt. -/
theorem row_of_another_token :
    VLMReachable (tinySpec [4] 2 1) (tinySettings .qwen25VL) (tinyVLMEnv TaggedToken)
        (tinyVLM TaggedToken (tinySpec [4] 2 1) .qwen25VL) ∧
      ∃ r, Event.exec r ∈ (vlmGenerate (tinySpec [4] 2 1) (tinySettings .qwen25VL)
          (tinyVLMEnv TaggedToken) (tagPrompt [0, 0, 0]) noImage (slidingCfg 2) (fun _ => .continue)
          (tinyVLM TaggedToken (tinySpec [4] 2 1) .qwen25VL)).2.trace ∧
        ¬RowsBelong TaggedToken.origin (prepareInputs (tinySettings .qwen25VL)
          (tinyVLMEnv TaggedToken) (tagPrompt [0, 0, 0]) noImage
          (tinyVLM TaggedToken (tinySpec [4] 2 1) .qwen25VL)).2.providers r.ctx := by
  refine ⟨tinyVLM_reachable .., ?_⟩
  have hlast : ∃ r ∈ execs (vlmGenerate (tinySpec [4] 2 1) (tinySettings .qwen25VL)
      (tinyVLMEnv TaggedToken) (tagPrompt [0, 0, 0]) noImage (slidingCfg 2) (fun _ => .continue)
      (tinyVLM TaggedToken (tinySpec [4] 2 1) .qwen25VL)).2.trace,
      ¬RowsBelong TaggedToken.origin (prepareInputs (tinySettings .qwen25VL)
        (tinyVLMEnv TaggedToken) (tagPrompt [0, 0, 0]) noImage
        (tinyVLM TaggedToken (tinySpec [4] 2 1) .qwen25VL)).2.providers r.ctx := by
    decide +kernel
  obtain ⟨r, hr, hwrong⟩ := hlast
  exact ⟨r, mem_execs.mp hr, hwrong⟩

end Geniex
