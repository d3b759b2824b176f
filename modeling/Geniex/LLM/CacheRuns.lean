import Geniex.LLM.Cache

/-!
# The KV cache over whole runs

The invariant of `Sound` at the two strides it is used at, through prefill, eviction, the decode
loop and the operations between calls.

* `AtPrefill`: between calls and during prefill; `AtDecode`: at the head of the decode loop.
* `generate_cache`: a call that starts at the prefill stride ends there, or by an exception in the
  decode loop, or in a wait without end.
-/

namespace Geniex

open FlatMem Prog

variable {τ ρ I : Type} {spec : LLMSpec} {env : Env τ ρ I}

/-! ## The two strides -/

/-- The cache at the prefill stride. -/
structure AtPrefill (spec : LLMSpec) (env : Env τ ρ I) (clock : Bool) (w : World τ ρ I) : Prop where
  sound : Sound spec env .prefill clock
    (fun _ => min w.nPast (spec.kvLen .prefill w.activeClIdx)) w
  fits : Fits spec .prefill w
  bounded : Fine spec w.trace → w.nPast ≤ spec.maxCl - spec.seqLenDecode

/-- The cache at the decode stride. The columns from `cap` on may be lost, but not in a whole run,
and never those that the prefill stride has. -/
structure AtDecode (spec : LLMSpec) (env : Env τ ρ I) (clock : Bool) (cap : ℕ) (w : World τ ρ I) :
    Prop where
  sound : Sound spec env .decode clock (fun _ => min cap w.nPast) w
  fits : Fits spec .decode w
  held : Fine spec w.trace → w.nPast ≤ spec.kvLen .decode w.activeClIdx
  whole : Whole spec w.trace → spec.maxCl ≤ cap
  low : spec.maxCl - spec.seqLenPrefill ≤ cap

variable {clock : Bool} {cap : ℕ} {w : World τ ρ I}

theorem Sound.pending_nil {bound : KVTensor → ℕ} (h : Sound spec env .prefill clock bound w) :
    w.pending = [] := by
  refine List.eq_nil_iff_forall_not_mem.mpr fun j hj => ?_
  cases (h.pool j hj).1

/-- A new layout that keeps the columns below the new bound. -/
theorem Sound.relayout {p q : Phase} {bound B : KVTensor → ℕ} {kv : KVMem} {a n : ℕ}
    (h : Sound spec env p clock bound w) (hnil : w.pending = []) (ha : a < spec.numCl)
    (hcell : Fine spec w.trace → ∀ t, spec.hasTensor t = true → ∀ r < spec.rows t,
      ∀ c < B t, ∀ b < spec.tokenSize t, c < bound t ∧
        kv t (cell (spec.kvLen q a) (spec.tokenSize t) r c b) =
          w.kv t (cell (spec.kvLen p w.activeClIdx) (spec.tokenSize t) r c b)) :
    Sound spec env q clock B { w with kv := kv, activeClIdx := a, nPast := n } := by
  have hempty : ∀ j, j ∉ w.pending := by simp [hnil]
  refine ⟨⟨ha, fun j hj => absurd hj (hempty j), h.queued.writes⟩, h.clockKeeper,
    fun j hj => absurd hj (hempty j), h.seen, fun hf => ⟨fun t ht r hr c hc b hb _ => ?_,
      fun j hj => absurd hj (hempty j)⟩⟩
  obtain ⟨hlt, heq⟩ := hcell hf t ht r hr c hc b hb
  exact heq.trans ((h.good hf).1 t ht r hr c hlt b hb (by simp [hnil]))

/-- Promotion keeps the columns that the old row width has. -/
theorem Sound.promote {p : Phase} {bound B : KVTensor → ℕ} (required reserved : ℕ)
    (h : Sound spec env p clock bound w) (hnil : w.pending = [])
    (hle : Fine spec w.trace → ∀ t, B t ≤ bound t ∧ B t ≤ w.nPast ∧
      B t ≤ spec.kvLen p w.activeClIdx) :
    Sound spec env p clock B (promoteCL spec required reserved (spec.seqLen p) w) := by
  have hspec := promoteTarget_spec required reserved h.active
  rw [promoteCL_eq h.active]
  refine h.relayout hnil hspec.2.1 fun hf t ht r hr c hc b hb => ?_
  obtain ⟨h1, h2, h3⟩ := hle hf t
  have hold := hc.trans_le h3
  exact ⟨hc.trans_le h1, reshapeAll_cell ht hr (hc.trans_le h2) hold
    (hold.trans_le (spec.kvLen_mono hspec.1 hspec.2.1)) hb⟩

/-- A restride keeps the columns that both row widths have. -/
theorem Sound.restride {p q : Phase} {bound B : KVTensor → ℕ} {n : ℕ}
    (h : Sound spec env p clock bound w) (hnil : w.pending = [])
    (hle : Fine spec w.trace → ∀ t, B t ≤ bound t ∧ B t ≤ n ∧
      B t ≤ spec.kvLen p w.activeClIdx ∧ B t ≤ spec.kvLen q w.activeClIdx) :
    Sound spec env q clock B (restrideActive spec p q n w) := by
  refine h.relayout hnil h.active fun hf t ht r hr c hc b hb => ?_
  obtain ⟨h1, h2, h3, h4⟩ := hle hf t
  exact ⟨hc.trans_le h1, reshapeAll_cell ht hr (hc.trans_le h2) (hc.trans_le h3)
    (hc.trans_le h4) hb⟩

/-! ## Prefill -/

/-- A prefill chunk of at most as many tokens as the graph takes. -/
theorem prefillChunk_cache (isFinal : Bool) {chunk : List τ}
    (hk : chunk.length ≤ spec.seqLenPrefill) :
    Triple (AtPrefill spec env clock) (prefillChunk spec env isFinal chunk)
      (fun _ w => AtPrefill spec env clock w ∧
        (Fine spec w.trace → w.nPast ≤ spec.kvLen .prefill w.activeClIdx))
      (fun _ w => AtPrefill spec env clock w) := by
  refine Triple.get fun w₁ hw₁ => ?_
  have hle := spec.decode_le_prefill
  set k := chunk.length with hkdef
  set w₂ := w₁.log (.step .prefill w₁.nPast k) with hw₂
  have hs₂ := hw₁.sound.log (e := .step .prefill w₁.nPast k) (by simp) (by simp)
  have hspec := promoteTarget_spec (w₁.nPast + k) spec.seqLenPrefill hw₁.sound.active
  set a := promoteTarget spec (w₁.nPast + k) spec.seqLenPrefill w₁.activeClIdx with ha
  have hmid : Mid spec env .prefill clock spec.maxCl w₁.nPast k a 0
      (promoteCL spec (w₁.nPast + k) spec.seqLenPrefill spec.seqLenPrefill w₂) := by
    refine ⟨hs₂.promote _ _ hs₂.pending_nil fun hf t => ?_, ?_, ?_, fun j hj => ?_, ?_, ?_,
      fun _ => le_rfl⟩
    · -- the history fits the old stride: it fits, or no promotion is left
      have hle : w₁.nPast ≤ spec.kvLen .prefill w₁.activeClIdx := by
        have hroom := hf _ _ _ List.mem_cons_self
        rcases hw₁.fits with h | h
        · exact h
        · rw [spec.kvLen_last h]
          omega
      have hmin : min spec.maxCl w₁.nPast ≤ w₁.nPast := min_le_right _ _
      simp only [Nat.not_lt_zero, if_false]
      exact ⟨le_min hmin (hmin.trans hle), hmin, hmin.trans hle⟩
    · rw [promoteCL_eq hs₂.active]
      exact ha.symm
    · rw [promoteCL_eq hs₂.active]
      rfl
    · rw [promoteCL_eq hs₂.active] at hj
      change j ∈ w₁.pending at hj
      rw [hw₁.sound.pending_nil] at hj
      cases hj
    · rw [promoteCL_trace]
      exact List.mem_cons_self
    · exact promoteTarget_room .prefill _ hw₁.sound.active
  refine Triple.bind (R := fun _ w => w = w₂) (Triple.modify fun w hw => by rw [hw]) fun _ =>
    Triple.bind (R := fun _ => Mid spec env .prefill clock spec.maxCl w₁.nPast k a 0)
      (Triple.modify fun w hw => by rw [hw]; exact hmid) fun _ => Triple.get fun w₃ hw₃ => ?_
  rw [hw₃.active]
  have hshards : Triple (Mid spec env .prefill clock spec.maxCl w₁.nPast k a 0)
      (Prog.forRange spec.shardCount
        (prefillShard spec env isFinal a ⟨chunk, w₁.nPast, k, .prefill⟩))
      (fun _ => Mid spec env .prefill clock spec.maxCl w₁.nPast k a spec.shardCount)
      (fun _ w => ∃ s, Mid spec env .prefill clock spec.maxCl w₁.nPast k a s w) :=
    Triple.forRange (I := Mid spec env .prefill clock spec.maxCl w₁.nPast k a) fun _ _ =>
      Mid.prefillShard isFinal chunk hk
  refine Triple.bind (hshards.conseq (fun w hw => by subst hw; exact hw₃) (fun _ _ h => h) ?_)
    fun _ => Triple.modify fun w hw => ⟨⟨?_, ?_, fun hf => ?_⟩, fun hf => ?_⟩
  · rintro _ w ⟨s, hw⟩
    refine ⟨hw.sound.mono fun t _ => ?_, ?_, fun hf => ?_⟩
    · have := spec.kvLen_le_last (p := .prefill) hw.sound.active
      have := Nat.sub_le spec.maxCl (spec.seqLen .prefill)
      rw [hw.nPast]
      split_ifs <;> omega
    · unfold Fits
      rw [hw.nPast, hw.active]
      exact hspec.2.2.imp_left fun h => (Nat.le_add_right _ _).trans h
    · have := hf _ _ _ hw.step
      rw [hw.nPast]
      simp only [LLMSpec.seqLen] at this
      omega
  · have hs := hw.sound.mono (B := fun _ => min (w.nPast + k) (spec.kvLen .prefill w.activeClIdx))
      fun t ht => by
        have := spec.kvLen_le_last (p := .prefill) hw.sound.active
        have := Nat.sub_le spec.maxCl (spec.seqLen .prefill)
        rw [if_pos (shard_lt_of_hasTensor ht), hw.nPast]
        omega
    exact ⟨hs.queued.of_eq rfl rfl rfl, hs.clockKeeper, hs.pool, hs.seen, hs.good⟩
  · show w.nPast + k ≤ spec.kvLen .prefill w.activeClIdx ∨ w.activeClIdx + 1 = spec.numCl
    rw [hw.nPast, hw.active]
    exact hspec.2.2
  · have := hf _ _ _ hw.step
    show w.nPast + k ≤ _
    rw [hw.nPast]
    simp only [LLMSpec.seqLen] at this
    omega
  · show w.nPast + k ≤ spec.kvLen .prefill w.activeClIdx
    rw [hw.nPast, hw.active]
    exact hw.fit hf

/-- Prefill keeps the cache at its stride, and the history fits the stride if it had tokens. -/
theorem prefillLoop_cache (fuel : ℕ) (tokens : List τ) (last : ℕ) (hfuel : tokens.length ≤ fuel) :
    Triple (AtPrefill spec env clock) (prefillLoop spec env fuel tokens last)
      (fun _ w => AtPrefill spec env clock w ∧ (tokens ≠ [] → Fine spec w.trace →
        w.nPast ≤ spec.kvLen .prefill w.activeClIdx))
      (fun _ w => AtPrefill spec env clock w) := by
  have key : ∀ fuel (tokens : List τ) last, tokens.length ≤ fuel → ∀ full : Prop,
      (full ∨ tokens ≠ []) →
      Triple (fun w => AtPrefill spec env clock w ∧ (full → Fine spec w.trace →
          w.nPast ≤ spec.kvLen .prefill w.activeClIdx)) (prefillLoop spec env fuel tokens last)
        (fun _ w => AtPrefill spec env clock w ∧ (Fine spec w.trace →
          w.nPast ≤ spec.kvLen .prefill w.activeClIdx))
        (fun _ w => AtPrefill spec env clock w) := by
    intro fuel
    induction fuel with
    | zero =>
      intro tokens last hfuel full hfull
      obtain rfl : tokens = [] := List.length_eq_zero_iff.mp (by omega)
      exact Triple.pure fun w hw => ⟨hw.1, hw.2 (hfull.resolve_right (by simp))⟩
    | succ fuel ih =>
      intro tokens last hfuel full hfull
      unfold prefillLoop
      refine Triple.ite (fun h => ?_) fun h => ?_
      · exact Triple.pure fun w hw => ⟨hw.1, hw.2 (hfull.resolve_right (by simp [h]))⟩
      · have hpos : 0 < spec.seqLenPrefill := spec.seqLen_pos .prefill
        have hlen : 0 < tokens.length := List.length_pos_of_ne_nil h
        refine Triple.bind ((prefillChunk_cache _ (List.length_take_le _ _)).pre fun _ h => h.1)
          fun _ => (ih _ _ (by rw [List.length_drop]; omega) True (Or.inl trivial)).pre
            fun w hw => ⟨hw.1, fun _ => hw.2⟩
  by_cases hnil : tokens = []
  · subst hnil
    cases fuel <;> exact Triple.pure fun w hw => ⟨hw, fun h => absurd rfl h⟩
  · exact (key fuel tokens last hfuel False (Or.inr hnil)).conseq (fun w hw => ⟨hw, False.elim⟩)
      (fun _ w hw => ⟨hw.1, fun _ => hw.2⟩) fun _ _ h => h

/-- Once some step had no room, the log says so. -/
theorem prefillLoop_unfine (fuel : ℕ) (tokens : List τ) (last : ℕ) (hfuel : tokens.length ≤ fuel) :
    Triple (fun w => AtPrefill spec env clock w ∧ ¬Fine spec w.trace ∧
        (Whole spec w.trace → spec.maxCl ≤ cap))
      (prefillLoop spec env fuel tokens last)
      (fun _ w => AtPrefill spec env clock w ∧ ¬Fine spec w.trace ∧
        (Whole spec w.trace → spec.maxCl ≤ cap))
      (fun _ w => AtPrefill spec env clock w) := by
  refine Triple.of_eq fun w₁ hw₁ => ?_
  obtain ⟨hat, hnf, hwhole⟩ := hw₁
  have hgrows : Stable (fun w : World τ ρ I => w₁.trace <:+ w.trace)
      (prefillLoop spec env fuel tokens last) := (logGrows w₁.trace).prefillLoop _ _ _
  exact ((prefillLoop_cache fuel tokens last hfuel).and hgrows).conseq
    (fun w hw => by subst hw; exact ⟨hat, List.suffix_rfl⟩)
    (fun _ w hw => ⟨hw.1.1, fun hf => hnf (hf.of_suffix hw.2),
      fun h => hwhole (h.of_suffix hw.2)⟩) fun _ w hw => hw.1

/-! ## Eviction -/

theorem AtPrefill.log {e : Event τ I} (h : AtPrefill spec env clock w) (hw : ∀ x, e ≠ .kvWrite x)
    (hx : ∀ x, e ≠ .exec x) : AtPrefill spec env clock (w.log e) :=
  ⟨h.sound.log hw hx, h.fits, fun hf => h.bounded (hf.of_suffix (List.suffix_cons _ _))⟩

theorem AtDecode.log {e : Event τ I} (h : AtDecode spec env clock cap w)
    (hw : ∀ x, e ≠ .kvWrite x) (hx : ∀ x, e ≠ .exec x) : AtDecode spec env clock cap (w.log e) :=
  have hs := List.suffix_cons e w.trace
  ⟨h.sound.log hw hx, h.fits, fun hf => h.held (hf.of_suffix hs),
    fun hw => h.whole (hw.of_suffix hs), h.low⟩

theorem log_cache {e : Event τ I} (hw : ∀ x, e ≠ .kvWrite x) (hx : ∀ x, e ≠ .exec x)
    {E : Err → World τ ρ I → Prop} :
    Triple (AtDecode spec env clock cap) (Prog.modify (World.log e))
      (fun _ => AtDecode spec env clock cap) E :=
  Triple.modify fun _ h => h.log hw hx

/-- Fewer positions. -/
theorem AtPrefill.truncate {n : ℕ} (h : AtPrefill spec env clock w) (hn : n ≤ w.nPast)
    (history : List τ) :
    AtPrefill spec env clock { w with nPast := n, tokenHistory := history } := by
  have hs := h.sound.mono (B := fun _ => min n (spec.kvLen .prefill w.activeClIdx))
    fun _ _ => min_le_min_right _ hn
  exact ⟨⟨hs.queued.of_eq rfl rfl rfl, hs.clockKeeper, hs.pool, hs.seen, hs.good⟩,
    h.fits.mono hn le_rfl h.sound.active, fun hf => hn.trans (h.bounded hf)⟩

/-- The history fits the decode stride. -/
theorem AtPrefill.held (h : AtPrefill spec env clock w) (hf : Fine spec w.trace) :
    w.nPast ≤ spec.kvLen .decode w.activeClIdx := by
  rcases h.fits.decode with hfit | hlast
  · exact hfit
  · rw [spec.kvLen_last hlast]
    exact h.bounded hf

theorem AtDecode.bounded (h : AtDecode spec env clock cap w) (hf : Fine spec w.trace) :
    w.nPast ≤ spec.maxCl - spec.seqLenDecode :=
  (h.held hf).trans (spec.kvLen_le_last h.sound.active)

/-- The two strides of a context length coincide. -/
theorem kvLen_aligned (h : spec.seqLenPrefill = spec.seqLenDecode) (i : ℕ) :
    spec.kvLen .prefill i = spec.kvLen .decode i := by
  simp only [LLMSpec.kvLen, LLMSpec.seqLen, h]

/-- What an exception in the decode loop leaves: without a pool, and with one AR for both phases,
the state is at rest. -/
def Aborted (spec : LLMSpec) (env : Env τ ρ I) (clock : Bool) (w : World τ ρ I) : Prop :=
  Seen spec w.trace ∧ (env.decodePool = false → spec.seqLenPrefill = spec.seqLenDecode →
    AtPrefill spec env clock w)

/-- With one AR, and nothing queued for want of a pool, the decode stride is the prefill stride. -/
theorem Sound.aligned {bound : KVTensor → ℕ} (h : Sound spec env .decode clock bound w)
    (hpool : env.decodePool = false) (heq : spec.seqLenPrefill = spec.seqLenDecode)
    (hbound : ∀ t, spec.hasTensor t = true →
      min w.nPast (spec.kvLen .prefill w.activeClIdx) ≤ bound t) :
    Sound spec env .prefill clock (fun _ => min w.nPast (spec.kvLen .prefill w.activeClIdx)) w := by
  have hs := h.mono (B := fun _ => min w.nPast (spec.kvLen .prefill w.activeClIdx)) hbound
  refine ⟨hs.queued, hs.clockKeeper, fun j hj => ?_, hs.seen, fun hf => ?_⟩
  · rw [(hs.pool j hj).2] at hpool
    cases hpool
  · have hgood := hs.good hf
    rwa [← kvLen_aligned heq] at hgood

theorem AtPrefill.aborted (h : AtPrefill spec env clock w) : Aborted spec env clock w :=
  ⟨h.sound.seen, fun _ _ => h⟩

theorem AtDecode.aborted (h : AtDecode spec env clock cap w) : Aborted spec env clock w := by
  refine ⟨h.sound.seen, fun hpool heq =>
    ⟨h.sound.aligned hpool heq fun t _ => ?_, ?_, h.bounded⟩⟩
  · have := spec.kvLen_le_last (p := .prefill) h.sound.active
    have := h.low
    simp only [LLMSpec.seqLen] at *
    omega
  · unfold Fits
    rw [kvLen_aligned heq]
    exact h.fits

theorem Mid.aborted {n₀ k a s : ℕ} (h : Mid spec env .decode clock cap n₀ k a s w)
    (hlow : spec.maxCl - spec.seqLenPrefill ≤ cap)
    (hfits : n₀ ≤ spec.kvLen .decode a ∨ a + 1 = spec.numCl) : Aborted spec env clock w := by
  refine ⟨h.sound.seen, fun hpool heq =>
    ⟨h.sound.aligned hpool heq fun t _ => ?_, ?_, fun hf => ?_⟩⟩
  · have := spec.kvLen_le_last (p := .prefill) h.sound.active
    have := h.nPast
    simp only [LLMSpec.seqLen] at *
    split_ifs <;> omega
  · unfold Fits
    rw [kvLen_aligned heq, h.nPast, h.active]
    exact hfits
  · have := hf _ _ _ h.step
    rw [h.nPast]
    exact (Nat.le_add_right _ _).trans this

/-! ## Sampler calls -/

/-- Calls of the sampler touch no part of the cache. -/
theorem Sound.feedSampler {p : Phase} {bound : KVTensor → ℕ} (h : Sound spec env p clock bound w)
    (calls : List (SamplerCall τ)) : Sound spec env p clock bound (Geniex.feedSampler calls w) := by
  have hsuffix : w.trace <:+ (Geniex.feedSampler calls w).trace := List.suffix_append _ _
  refine ⟨(queued_call : CallInvariant spec env _).feed h.queued calls, h.clockKeeper, h.pool,
    h.seen.append _ fun x hx => ?_, fun hf => h.good (hf.of_suffix hsuffix)⟩
  obtain ⟨c, -, hc⟩ := List.mem_map.mp (List.mem_reverse.mp hx)
  cases hc

theorem AtPrefill.prepareSampler (h : AtPrefill spec env clock w) (cfg : GenerationConfig)
    (prompt : List τ) : AtPrefill spec env clock (Geniex.prepareSampler cfg prompt w) := by
  have hplain : ∀ sampler samplerCfg, AtPrefill spec env clock
      { w with sampler := sampler, samplerCfg := samplerCfg } := fun _ _ =>
    ⟨⟨h.sound.queued.of_eq rfl rfl rfl, h.sound.clockKeeper, h.sound.pool, h.sound.seen,
      h.sound.good⟩, h.fits, h.bounded⟩
  have hbuild : AtPrefill spec env clock (buildSampler cfg w) := by
    unfold buildSampler
    split_ifs
    · exact h
    · exact hplain _ _
  unfold Geniex.prepareSampler
  split_ifs
  · exact hplain _ _
  · exact hbuild
  · exact ⟨hbuild.sound.feedSampler _, hbuild.fits,
      fun hf => hbuild.bounded (hf.of_suffix (List.suffix_append _ _))⟩

/-! ## Between the strides -/

/-- Of the history, what `cap` leaves fits the prefill stride. -/
structure Filled (spec : LLMSpec) (cap : ℕ) (w : World τ ρ I) : Prop where
  fits : Fine spec w.trace → min cap w.nPast ≤ spec.kvLen .prefill w.activeClIdx
  whole : Whole spec w.trace → spec.maxCl ≤ cap
  low : spec.maxCl - spec.seqLenPrefill ≤ cap

/-- A call with an empty prompt. -/
theorem AtPrefill.filled (h : AtPrefill spec env clock w)
    (hw : Event.enter w.nPast 0 ∈ w.trace) : ∃ cap, Filled spec cap w := by
  by_cases hn : w.nPast ≤ spec.maxCl - spec.seqLenPrefill
  · refine ⟨spec.maxCl, fun _ => (min_le_right _ _).trans ?_, fun _ => le_rfl, Nat.sub_le _ _⟩
    rcases h.fits with hfit | hlast
    · exact hfit
    · rw [spec.kvLen_last hlast]
      exact hn
  · refine ⟨spec.maxCl - spec.seqLenPrefill, fun _ => ?_, fun hwhole => ?_, le_rfl⟩
    · rcases h.fits with hfit | hlast
      · exact (min_le_right _ _).trans hfit
      · rw [spec.kvLen_last hlast]
        exact min_le_left _ _
    · exact absurd ((hwhole _ _ hw).resolve_left (lt_irrefl 0)) hn

/-- The switch to the decode stride. -/
theorem AtPrefill.toDecode (h : AtPrefill spec env clock w) (hfill : Filled spec cap w) :
    AtDecode spec env clock cap (restrideActive spec .prefill .decode w.nPast w) := by
  refine ⟨h.sound.restride h.sound.pending_nil fun hf t => ?_, h.fits.decode, h.held, hfill.whole,
    hfill.low⟩
  have hfit := hfill.fits hf
  have hle : min cap w.nPast ≤ w.nPast := min_le_right _ _
  exact ⟨le_min hle hfit, hle, hfit, hfit.trans (spec.kvLen_prefill_le _)⟩

/-- The exit restride. -/
theorem AtDecode.restorePrefillStride (h : AtDecode spec env clock cap w) (hnil : w.pending = []) :
    AtPrefill spec env clock (Geniex.restorePrefillStride spec w) := by
  have hspec := promoteTarget_spec w.nPast spec.seqLenPrefill h.sound.active
  have hlow := h.low
  have hp := h.sound.promote (B := fun _ => min cap w.nPast) w.nPast spec.seqLenPrefill hnil
    fun hf _ => ⟨le_rfl, min_le_right _ _, (min_le_right _ _).trans (h.held hf)⟩
  have heq := promoteCL_eq h.sound.active w.nPast spec.seqLenPrefill spec.seqLenDecode
  have hlast := spec.kvLen_le_last (p := .prefill) hspec.2.1
  have hr := hp.restride (q := .prefill)
    (B := fun _ => min w.nPast (spec.kvLen .prefill
      (promoteTarget spec w.nPast spec.seqLenPrefill w.activeClIdx)))
    (n := w.nPast) (by simpa only [LLMSpec.seqLen, heq] using hnil) fun hf _ => by
      simp only [LLMSpec.seqLen, heq] at hlast ⊢
      have := spec.kvLen_prefill_le
        (promoteTarget spec w.nPast spec.seqLenPrefill w.activeClIdx)
      omega
  simp only [LLMSpec.seqLen, heq] at hr
  unfold Geniex.restorePrefillStride
  rw [heq]
  exact ⟨hr, hspec.2.2, h.bounded⟩

/-! ## A decode step -/

/-- `if (decode_pool_) decode_pool_->wait();` -/
theorem waitPool_cache :
    Triple (AtDecode spec env clock cap) (waitPool spec env)
      (fun _ w => AtDecode spec env clock cap w ∧ w.pending = [])
      (fun e w => e = .blocked ∧ Aborted spec env clock w) := by
  refine Triple.get fun w₁ hw₁ => Triple.ite (fun h => ?_) fun h => Triple.ite (fun _ => ?_) fun _ => ?_
  · refine Triple.pure fun w hw => ?_
    subst hw
    refine ⟨hw₁, h.elim id fun hpool => List.eq_nil_iff_forall_not_mem.mpr fun j hj => ?_⟩
    rw [(hw₁.sound.pool j hj).2] at hpool
    cases hpool
  · exact Triple.throw fun w hw => ⟨rfl, hw ▸ hw₁.aborted⟩
  · refine Triple.modify fun w hw => ?_
    subst hw
    have hs := hw₁.sound.settle (fun _ => true) fun hf _ _ => (min_le_right _ _).trans (hw₁.held hf)
    have hq := settle_quietly spec (fun _ => true) w
    obtain ⟨es, -, ht⟩ := hq.trace
    have hsuffix : w.trace <:+ (settle spec (fun _ => true) w).trace := ht ▸ List.suffix_append es _
    have ha := hq.active hw₁.sound.active
    refine ⟨⟨?_, hw₁.fits.mono hq.nPast.le ha.1 ha.2, fun hf => ?_,
      fun h => hw₁.whole (h.of_suffix hsuffix), hw₁.low⟩, by simp [settle]⟩
    · rw [hq.nPast]
      exact hs
    · rw [hq.nPast]
      exact (hw₁.held (hf.of_suffix hsuffix)).trans (spec.kvLen_mono ha.1 ha.2)

/-- A decode step at its position. -/
theorem decodeForward_cache (tok : τ) :
    Triple (fun w => AtDecode spec env clock cap w ∧ w.pending = []) (decodeForward spec env tok)
      (fun _ => AtDecode spec env clock cap) (fun _ w => Aborted spec env clock w) := by
  refine Triple.get fun w₁ hw₁ => ?_
  obtain ⟨hw₁, hnil⟩ := hw₁
  set w₂ := w₁.log (.step .decode w₁.nPast 1) with hw₂
  have hsuffix : w₁.trace <:+ w₂.trace := List.suffix_cons _ _
  have hs₂ := hw₁.sound.log (e := .step .decode w₁.nPast 1) (by simp) (by simp)
  have hspec := promoteTarget_spec (w₁.nPast + 1) spec.seqLenDecode hw₁.sound.active
  set a := promoteTarget spec (w₁.nPast + 1) spec.seqLenDecode w₁.activeClIdx with ha
  have hmid : Mid spec env .decode clock cap w₁.nPast 1 a 0
      (promoteCL spec (w₁.nPast + 1) spec.seqLenDecode spec.seqLenDecode w₂) := by
    refine ⟨hs₂.promote _ _ hnil fun hf t => ?_, ?_, ?_, fun j hj => ?_, ?_, ?_, fun h => ?_⟩
    · have hle := hw₁.held (hf.of_suffix hsuffix)
      have hmin : min cap w₁.nPast ≤ w₁.nPast := min_le_right _ _
      simp only [Nat.not_lt_zero, if_false]
      exact ⟨le_rfl, hmin, hmin.trans hle⟩
    · rw [promoteCL_eq hs₂.active]
      exact ha.symm
    · rw [promoteCL_eq hs₂.active]
      rfl
    · rw [promoteCL_eq hs₂.active] at hj
      change j ∈ w₁.pending at hj
      rw [hnil] at hj
      cases hj
    · rw [promoteCL_trace]
      exact List.mem_cons_self
    · exact promoteTarget_room .decode _ hw₁.sound.active
    · rw [promoteCL_trace] at h
      exact hw₁.whole (h.of_suffix hsuffix)
  refine Triple.bind (R := fun _ w => w = w₂) (Triple.modify fun w hw => by rw [hw]) fun _ =>
    Triple.bind (R := fun _ => Mid spec env .decode clock cap w₁.nPast 1 a 0)
      (Triple.modify fun w hw => by rw [hw]; exact hmid) fun _ => Triple.get fun w₃ hw₃ => ?_
  rw [hw₃.active]
  have hshards : Triple (Mid spec env .decode clock cap w₁.nPast 1 a 0)
      (Prog.forRange spec.shardCount
        (decodeShard spec env a ⟨[tok], w₁.nPast, 1, .decode⟩))
      (fun _ => Mid spec env .decode clock cap w₁.nPast 1 a spec.shardCount)
      (fun _ w => ∃ s, Mid spec env .decode clock cap w₁.nPast 1 a s w) :=
    Triple.forRange (I := Mid spec env .decode clock cap w₁.nPast 1 a) fun _ _ =>
      Mid.decodeShard [tok]
  refine Triple.bind (hshards.conseq (fun w hw => by subst hw; exact hw₃) (fun _ _ h => h) ?_)
    fun _ => Triple.modify fun w hw => ?_
  · rintro _ w ⟨s, hw⟩
    exact hw.aborted hw₁.low (hspec.2.2.imp_left fun h => (Nat.le_succ _).trans h)
  · have hgrow : w.trace <:+ (w.log (.appended [tok])).trace := List.suffix_cons _ _
    refine ⟨?_, ?_, fun hf => ?_, fun h => hw.whole (h.of_suffix hgrow), hw₁.low⟩
    · have hs := (hw.sound.mono (B := fun _ => min cap (w.nPast + 1)) fun t ht => by
        rw [if_pos (shard_lt_of_hasTensor ht), hw.nPast]).log (e := .appended [tok]) (by simp)
          (by simp)
      exact ⟨hs.queued.of_eq rfl rfl rfl, hs.clockKeeper, hs.pool, hs.seen, hs.good⟩
    · show w.nPast + 1 ≤ spec.kvLen .decode w.activeClIdx ∨ w.activeClIdx + 1 = spec.numCl
      rw [hw.nPast, hw.active]
      exact hspec.2.2
    · show w.nPast + 1 ≤ spec.kvLen .decode w.activeClIdx
      rw [hw.nPast, hw.active]
      exact hw.fit (hf.of_suffix hgrow)

/-! ## The call -/

section Call

variable [Token τ]

/-- An eviction before prefill. -/
theorem slideWindowEvict_prefill {k d : ℕ} :
    Triple (fun w => AtPrefill spec env clock w ∧ k ≤ w.nPast)
      (slideWindowEvict spec env d k false) (fun _ w => AtPrefill spec env clock w)
      (fun _ w => AtPrefill spec env clock w) := by
  unfold slideWindowEvict
  refine Triple.when (fun _ => Triple.get fun w₁ hw₁ => ?_) fun _ w hw => hw.1
  refine Triple.bind (R := fun _ w => AtPrefill spec env clock w ∧ k ≤ w.nPast)
    (Triple.modify fun w hw => ?_) fun _ => Triple.bind (R := fun _ w =>
      AtPrefill spec env clock w ∧ k ≤ w.nPast) (Triple.when (fun h => nomatch h) fun _ _ hw => hw)
    fun _ => Triple.bind (R := fun _ => AtPrefill spec env clock)
      (Triple.modify fun w hw => hw.1.truncate hw.2 _) fun _ =>
    Triple.bind ((prefillLoop_cache _ _ _ le_rfl).post fun _ _ hw => hw.1) fun _ =>
    Triple.bind (R := fun _ => AtPrefill spec env clock)
      (Triple.when (fun h => nomatch h) fun _ _ hw => hw) fun _ =>
    Triple.modify fun w hw => hw.log (by simp) (by simp)
  subst hw
  exact ⟨hw₁.1.log (by simp) (by simp), hw₁.2⟩

/-- An eviction in the decode loop is one at a full cache, which some step had no room for. -/
theorem slideWindowEvict_decode {k d : ℕ} :
    Triple (fun w => (AtDecode spec env clock cap w ∧ w.pending = []) ∧
        w.activeClIdx + 1 = spec.numCl ∧ ¬Fine spec w.trace)
      (slideWindowEvict spec env d k true)
      (fun _ w => AtDecode spec env clock cap w ∧ w.pending = [])
      (fun _ w => Aborted spec env clock w) := by
  unfold slideWindowEvict
  refine Triple.when (fun _ => Triple.get fun w₁ hw₁ => ?_) fun hd w hw => hw.1
  obtain ⟨⟨hw₁, hnil⟩, hlast, hnf⟩ := hw₁
  set w₂ := w₁.log (.evictEntry w₁.nPast w₁.tokenHistory.length k d) with hw₂
  have hsuffix : w₁.trace <:+ w₂.trace := List.suffix_cons _ _
  have hnf₂ : ¬Fine spec w₂.trace := fun hf => hnf (hf.of_suffix hsuffix)
  have hat : AtPrefill spec env clock { restrideActive spec .decode .prefill k w₂ with
      nPast := k, tokenHistory := resizeHistory w₂.tokenHistory k } := by
    have hs : Sound spec env .prefill clock (fun _ => min k (spec.kvLen .prefill w₁.activeClIdx))
        (restrideActive spec .decode .prefill k w₂) :=
      (hw₁.log (by simp) (by simp)).sound.restride hnil fun hf => absurd hf hnf₂
    exact ⟨⟨hs.queued.of_eq rfl rfl rfl, hs.clockKeeper, hs.pool, hs.seen, hs.good⟩, Or.inr hlast,
      fun hf => absurd hf hnf₂⟩
  refine Triple.bind (R := fun _ w => w = w₂) (Triple.modify fun w hw => by rw [hw]) fun _ =>
    Triple.bind (R := fun _ w => w = restrideActive spec .decode .prefill k w₂)
      (Triple.when (fun _ => Triple.modify fun w hw => by rw [hw]) fun h => absurd rfl h) fun _ =>
    Triple.bind (R := fun _ w => AtPrefill spec env clock w ∧ ¬Fine spec w.trace ∧
        (Whole spec w.trace → spec.maxCl ≤ cap)) (Triple.modify fun w hw => ?_) fun _ =>
    Triple.bind ((prefillLoop_unfine _ _ _ le_rfl).conseq (fun _ h => h) (fun _ _ h => h)
      fun _ _ h => h.aborted) fun _ =>
    Triple.bind (R := fun _ w => AtDecode spec env clock cap w ∧ w.pending = [])
      (Triple.when (fun _ => Triple.modify fun w hw => ?_) fun h => absurd rfl h) fun _ =>
    Triple.modify fun w hw => ⟨hw.1.log (by simp) (by simp), hw.2⟩
  · subst hw
    exact ⟨hat, hnf₂, fun h => hw₁.whole (h.of_suffix hsuffix)⟩
  · obtain ⟨hat, hnf, hwhole⟩ := hw
    have hpn := hat.sound.pending_nil
    exact ⟨⟨hat.sound.restride hpn fun hf => absurd hf hnf, hat.fits.decode,
      fun hf => absurd hf hnf, hwhole, hw₁.low⟩, hpn⟩

/-- Making room before prefill. -/
theorem ensureRoom_prefill (cfg : GenerationConfig) (nFit : ℕ) (msg : String) {w₀ : World τ ρ I}
    (h₀ : AtPrefill spec env clock w₀) :
    Triple (fun w => w = w₀) (ensureRoom spec env cfg nFit false msg)
      (fun _ w => AtPrefill spec env clock w ∧ (w₀.nPast + nFit ≤ spec.maxCl → w = w₀))
      (fun _ w => AtPrefill spec env clock w) := by
  refine Triple.get fun w₁ hw₁ => ?_
  subst hw₁
  refine Triple.when (fun hfull => ?_) fun _ w hw => ⟨hw ▸ h₀, fun _ => hw⟩
  have hslide : Triple (fun w => w = w₁) (trySlide spec env cfg nFit false)
      (fun _ w => AtPrefill spec env clock w) (fun _ w => AtPrefill spec env clock w) := by
    refine Triple.get fun w hw => ?_
    subst hw
    refine Triple.when (fun h => slideWindowEvict_prefill.pre fun w' hw' => ?_)
      fun _ w hw => hw ▸ h₀
    have := computeSlideDiscard_le w.nPast nFit spec.maxCl (nKeepOf spec cfg)
    subst hw'
    exact ⟨h₀, by omega⟩
  refine Triple.bind hslide fun _ => Triple.get fun w₂ hw₂ => ?_
  exact Triple.when (fun _ => Triple.throw fun w hw => hw ▸ hw₂) fun _ w hw =>
    ⟨hw ▸ hw₂, fun hroom => absurd hroom (by omega)⟩

/-- Making room for one token in the decode loop. -/
theorem ensureRoom_decode (cfg : GenerationConfig) (msg : String) :
    Triple (fun w => AtDecode spec env clock cap w ∧ w.pending = [])
      (ensureRoom spec env cfg 1 true msg)
      (fun _ w => AtDecode spec env clock cap w ∧ w.pending = [])
      (fun _ w => Aborted spec env clock w) := by
  refine Triple.get fun w₁ hw₁ => Triple.when (fun hfull => ?_) fun _ w hw => hw ▸ hw₁
  have hpos := spec.decode_pos
  have hmax := spec.seqLen_le_maxCl .decode
  have hlen := spec.kvLen_le_last (p := .decode) hw₁.1.sound.active
  simp only [LLMSpec.seqLen] at hmax hlen
  have hnf : ¬Fine spec w₁.trace := by
    intro hf
    have := hw₁.1.held hf
    omega
  have hlast : w₁.activeClIdx + 1 = spec.numCl := by
    rcases hw₁.1.fits with h | h
    · omega
    · exact h
  have hslide : Triple (fun w => w = w₁) (trySlide spec env cfg 1 true)
      (fun _ w => AtDecode spec env clock cap w ∧ w.pending = [])
      (fun _ w => Aborted spec env clock w) := by
    refine Triple.get fun w hw => ?_
    subst hw
    exact Triple.when (fun _ => slideWindowEvict_decode.pre fun w' hw' => by
      subst hw'; exact ⟨hw₁, hlast, hnf⟩) fun _ w hw => hw ▸ hw₁
  refine Triple.bind hslide fun _ => Triple.get fun w₂ hw₂ => ?_
  exact Triple.when (fun _ => Triple.throw fun w hw => hw ▸ hw₂.1.aborted) fun _ w hw => hw ▸ hw₂

theorem sampleNextToken_cache (phase : Phase) (off : ℕ) {E : Err → World τ ρ I → Prop} :
    Triple (AtDecode spec env clock cap) (sampleNextToken spec env phase off)
      (fun _ => AtDecode spec env clock cap) E := by
  refine Triple.get fun w₁ hw₁ => ?_
  cases w₁.sampler with
  | none =>
    exact Triple.bind (R := fun _ => AtDecode spec env clock cap)
      ((log_cache (by simp) (by simp)).pre fun w hw => hw ▸ hw₁) fun _ => Triple.pure fun _ hw => hw
  | some s =>
    refine Triple.bind (R := fun _ => AtDecode spec env clock cap) (Triple.modify fun w hw => ?_)
      fun _ => Triple.bind (log_cache (by simp) (by simp)) fun _ => Triple.pure fun _ hw => hw
    subst hw
    have hsuffix : w.trace <:+ (feedSampler [.sample (readLastLogits spec phase off w),
        .accept (Token.ofId (env.sample s.cfg s.calls (readLastLogits spec phase off w)))] w).trace :=
      List.suffix_append _ _
    exact ⟨hw₁.sound.feedSampler _, hw₁.fits, fun hf => hw₁.held (hf.of_suffix hsuffix),
      fun h => hw₁.whole (h.of_suffix hsuffix), hw₁.low⟩

/-- Entry and prefill, up to and including the switch to the decode stride. -/
theorem prefillStage_cache (prompt : List τ) (cfg : GenerationConfig) :
    Triple (fun w => AtPrefill spec env clock w ∧ w.nPast ≤ spec.maxCl)
      (prefillStage spec env prompt cfg) (fun _ w => ∃ cap, AtDecode spec env clock cap w)
      (fun _ w => AtPrefill spec env clock w) := by
  refine Triple.get fun w₁ hw₁ => ?_
  obtain ⟨hw₁, hmax⟩ := hw₁
  set w₂ := Geniex.prepareSampler cfg prompt (w₁.log (.enter w₁.nPast prompt.length)) with hw₂
  have hat : AtPrefill spec env clock w₂ := (hw₁.log (by simp) (by simp)).prepareSampler cfg prompt
  have hq : Quietly spec (w₁.log (.enter w₁.nPast prompt.length)) w₂ :=
    prepareSampler_quietly cfg prompt _
  have hn : w₂.nPast = w₁.nPast := hq.nPast
  -- an empty prompt leaves the state as it is
  have hempty : prompt = [] → ∃ cap, Filled spec cap w₂ := by
    rintro rfl
    refine hat.filled ?_
    obtain ⟨es, -, ht⟩ := hq.trace
    rw [ht, hn]
    exact List.mem_append_right _ List.mem_cons_self
  refine Triple.bind (R := fun _ w => w = w₁.log (.enter w₁.nPast prompt.length))
    (Triple.modify fun w hw => by rw [hw]) fun _ =>
    Triple.bind (R := fun _ w => w = w₂) (Triple.modify fun w hw => by rw [hw]) fun _ =>
    Triple.bind (R := fun _ w => AtPrefill spec env clock w ∧
      (prompt = [] → ∃ cap, Filled spec cap w)) ((ensureRoom_prefill cfg _ _ hat).post
        fun _ w hw => ⟨hw.1, ?_⟩) fun _ =>
    Triple.bind (R := fun _ w => AtPrefill spec env clock w ∧ ∃ cap, Filled spec cap w) ?_
      fun last =>
    Triple.bind (R := fun _ w => AtPrefill spec env clock w ∧ ∃ cap, Filled spec cap w)
      (Triple.modify fun w hw => ?_) fun _ =>
    Triple.bind (R := fun _ w => ∃ cap, AtDecode spec env clock cap w)
      (Triple.modify fun w hw => hw.2.imp fun cap hfill => hw.1.toDecode hfill) fun _ =>
    Triple.of_exists fun cap => (sampleNextToken_cache _ _).post fun _ w hw => ⟨cap, hw⟩
  · intro hnil
    rw [hw.2 (by rw [hn, hnil]; exact hmax)]
    exact hempty hnil
  · by_cases hnil : prompt = []
    · subst hnil
      exact Triple.pure fun w hw => ⟨hw.1, hw.2 rfl⟩
    · refine (prefillLoop_cache _ prompt 0 le_rfl).conseq (fun _ h => h.1) (fun _ w hw => ?_)
        fun _ _ h => h
      exact ⟨hw.1, spec.maxCl, fun hf => (min_le_right _ _).trans (hw.2 hnil hf), fun _ => le_rfl,
        Nat.sub_le _ _⟩
  · have hsuffix : w.trace <:+ (w.log (.appended prompt)).trace := List.suffix_cons _ _
    obtain ⟨hw, cap, hfill⟩ := hw
    exact ⟨hw.log (by simp) (by simp), cap, fun hf => hfill.fits (hf.of_suffix hsuffix),
      fun h => hfill.whole (h.of_suffix hsuffix), hfill.low⟩

/-- The decode loop. -/
theorem decodeLoop_cache (cfg : GenerationConfig) (callback : List Int32 → CallbackAnswer) (n : ℕ)
    (next : τ) (out : List τ) :
    Triple (AtDecode spec env clock cap) (decodeLoop spec env cfg callback n next out)
      (fun _ => AtDecode spec env clock cap) (fun _ w => Aborted spec env clock w) := by
  have hleave : ∀ (reason : StopReason) (out : List τ), Triple (AtDecode spec env clock cap)
      (leaveLoop reason out) (fun _ => AtDecode spec env clock cap)
      (fun _ w => Aborted spec env clock w) := fun reason out =>
    Triple.bind (log_cache (by simp) (by simp)) fun _ => Triple.pure fun _ h => h
  induction n generalizing next out with
  | zero => exact hleave _ _
  | succ n ih =>
    unfold decodeLoop
    refine Triple.ite (fun _ => hleave _ _) fun _ =>
      Triple.bind (log_cache (by simp) (by simp)) fun _ => ?_
    cases callback ((out ++ [next]).map Token.id) with
    | stop => exact hleave _ _
    | throw => exact Triple.throw fun _ h => h.aborted
    | «continue» =>
      have hstep : Triple (AtDecode spec env clock cap) (decodeStep spec env cfg next)
          (fun _ => AtDecode spec env clock cap) (fun _ w => Aborted spec env clock w) :=
        Triple.bind (waitPool_cache.conseq (fun _ h => h) (fun _ _ h => h) fun _ _ h => h.2)
          fun _ => Triple.bind (ensureRoom_decode cfg _) fun _ => decodeForward_cache next
      exact Triple.bind hstep fun _ => Triple.bind (sampleNextToken_cache _ _) fun next' => ih next' _

/-- How a call leaves by an exception. -/
def Left (spec : LLMSpec) (env : Env τ ρ I) (e : Err) (w : World τ ρ I) : Prop :=
  Seen spec w.trace ∧ (e = .blocked ∨ AtPrefill spec env false w ∨
    .abort env.decodePool ∈ w.trace ∧ (env.decodePool = false →
      spec.seqLenPrefill = spec.seqLenDecode → AtPrefill spec env false w))

/-- The decode window ends with nothing queued and the clock keeper stopped, unless an exception
left the loop. -/
theorem decodeStage_cache (cfg : GenerationConfig) (callback : List Int32 → CallbackAnswer)
    (first : τ) :
    Triple (AtDecode spec env false cap) (decodeStage spec env cfg callback first)
      (fun _ w => AtDecode spec env false cap w ∧ w.pending = []) (Left spec env) := by
  set keeper := env.decodePool && decide (0 < env.clockKeeperThreads) with hkeeper
  refine Triple.bind (R := fun _ => AtDecode spec env keeper cap) (Triple.modify fun w hw => ?_)
    fun _ => Triple.bind ((decodeLoop_cache cfg callback _ first []).onThrow fun _ w hw => ?_)
    fun out => Triple.bind (waitPool_cache.conseq (fun _ h => h) (fun _ _ h => h)
      fun _ w hw => ⟨hw.2.1, Or.inl hw.1⟩) fun _ =>
    Triple.bind (R := fun _ w => AtDecode spec env false cap w ∧ w.pending = [])
      (Triple.modify fun w hw => ?_) fun _ => Triple.pure fun _ h => h
  · refine ⟨⟨hw.sound.queued.of_eq rfl rfl rfl, ?_, hw.sound.pool, hw.sound.seen, hw.sound.good⟩,
      hw.fits, hw.held, hw.whole, hw.low⟩
    show (w.clockKeeper || _) = keeper
    rw [hw.sound.clockKeeper, Bool.false_or]
  · refine ⟨hw.1.append [_] (by simp), Or.inr (Or.inr ⟨List.mem_cons_self,
      fun hpool heq => ?_⟩)⟩
    have hoff : keeper = false := by rw [hkeeper, hpool, Bool.false_and]
    rw [hoff] at hw
    exact (hw.2 hpool heq).log (by simp) (by simp)
  · obtain ⟨hw, hnil⟩ := hw
    refine ⟨⟨⟨hw.sound.queued.of_eq rfl rfl rfl, ?_, hw.sound.pool, hw.sound.seen, hw.sound.good⟩,
      hw.fits, hw.held, hw.whole, hw.low⟩, hnil⟩
    show (w.clockKeeper && !env.decodePool) = false
    rw [hw.sound.clockKeeper, hkeeper]
    cases env.decodePool <;> simp

variable (spec env) in
/-- How a call ends: at rest, or by an exception in the decode loop or a wait without end. -/
theorem generate_cache (prompt : List τ) (cfg : GenerationConfig)
    (callback : List Int32 → CallbackAnswer) :
    Triple (fun w => AtPrefill spec env false w ∧ w.nPast ≤ spec.maxCl)
      (generate spec env prompt cfg callback) (fun _ w => AtPrefill spec env false w)
      (Left spec env) := by
  refine Triple.bind (R := fun _ w => ∃ cap, AtDecode spec env false cap w ∧ w.pending = [])
    (Triple.bind ((prefillStage_cache prompt cfg).conseq (fun _ h => h) (fun _ _ h => h)
      fun _ w hw => ⟨hw.sound.seen, Or.inr (Or.inl hw)⟩) fun first => Triple.of_exists fun cap =>
      (decodeStage_cache cfg callback first).post fun _ w hw => ⟨cap, hw⟩) fun out =>
    Triple.bind (R := fun _ => AtPrefill spec env false) (Triple.modify fun w hw => ?_) fun _ =>
    Triple.pure fun _ h => h
  obtain ⟨cap, hw, hnil⟩ := hw
  exact hw.restorePrefillStride hnil

end Call

end Geniex
