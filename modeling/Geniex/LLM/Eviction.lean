import Geniex.LLM.Cache
import Geniex.LLM.LmHead
import Geniex.LLM.LogitsRows
import Geniex.LLM.Sliding

/-!
# What an eviction leaves in the cache

`slideWindowEvict` keeps the columns of the anchored prefix and prefills the surviving tokens after
them.

* `Refilling`: the columns during that prefill; `prefillLoop_refills` is the whole prefill.
* `slideWindowEvict_inv`: an eviction as one prefill between two changes of the stride.
* `evicted_iff`: in which evictions nothing is lost.
-/

namespace Geniex

open FlatMem Prog

variable {τ ρ I : Type} {spec : LLMSpec} {env : Env τ ρ I}

/-! ## The columns during a prefill -/

/-- Prefilling on top of the columns `[0, k₀)`: these hold `base`, and the columns from `k₀` up to
`bound` hold what was produced for their positions. -/
structure Refilling (spec : LLMSpec) (base : KVColumns) (k₀ : ℕ) (bound : KVTensor → ℕ)
    (w : World τ ρ I) : Prop where
  idle : w.pending = []
  active : w.activeClIdx < spec.numCl
  kept : ∀ t, spec.hasTensor t = true → ∀ r < spec.rows t, ∀ c < k₀, ∀ b < spec.tokenSize t,
    w.kv t (cell (spec.kvLen .prefill w.activeClIdx) (spec.tokenSize t) r c b) = base t r c b
  written : ∀ t, spec.hasTensor t = true → ∀ r < spec.rows t, ∀ c, k₀ ≤ c → c < bound t →
    ∀ b < spec.tokenSize t,
      w.kv t (cell (spec.kvLen .prefill w.activeClIdx) (spec.tokenSize t) r c b) =
        w.produced t r c b

/-- Between two shards of a chunk of `k` tokens from position `n` on: the shards below `s` are
done. -/
structure RefillingShard (spec : LLMSpec) (base : KVColumns) (k₀ n k a s : ℕ) (w : World τ ρ I) :
    Prop where
  columns : Refilling spec base k₀ (fun t => if t.shard < s then n + k else n) w
  active : w.activeClIdx = a

/-- Between two chunks, with every column in its row. -/
structure RefillingChunk (spec : LLMSpec) (base : KVColumns) (k₀ n : ℕ) (w : World τ ρ I) :
    Prop where
  columns : Refilling spec base k₀ (fun _ => n) w
  nPast : w.nPast = n
  inRow : n ≤ spec.kvLen .prefill w.activeClIdx

namespace RefillingShard

variable {base : KVColumns} {k₀ n k a s : ℕ} {w : World τ ρ I}

/-- One execution stores the outputs of its shard. -/
theorem runShard (tokens : List τ) :
    Triple (RefillingShard spec base k₀ n k a s)
      (Geniex.runShard spec env s .prefill a ⟨tokens, n, k, .prefill⟩)
      (fun _ w => RefillingShard spec base k₀ n k a s w ∧ OutputsHold spec .prefill n k a s w)
      (fun _ _ => True) := by
  rintro w ⟨hw, rfl⟩
  rcases hrun : Geniex.runShard spec env s .prefill w.activeClIdx ⟨tokens, n, k, .prefill⟩ w with
    ⟨e | ⟨⟨⟩⟩, w'⟩
  · trivial
  obtain ⟨out, -, rfl⟩ := (runShard_ok hw.idle).mp hrun
  refine ⟨⟨⟨hw.idle, hw.active, hw.kept, fun t ht r hr c hc hcb b hb => ?_⟩, rfl⟩,
    fun t ht hs r hr i hi b hb => ?_⟩
  · show _ = produce spec s _ out w.produced t r c b
    unfold produce
    rw [if_neg]
    · exact hw.written t ht r hr c hc hcb b hb
    · rintro ⟨rfl, hn, -⟩
      simp only [lt_irrefl, if_false] at hcb
      exact absurd hcb (not_lt.mpr hn)
  · show (Function.update w.outs _ out (spec.graphIndex .prefill s w.activeClIdx)).kvOut t _ =
      produce spec s _ out w.produced t r (n + i) b
    rw [Function.update_self, produce,
      if_pos ⟨hs, Nat.le_add_right _ _, Nat.add_lt_add_left hi n⟩, Nat.add_sub_cancel_left]

/-- Its write-back fills the columns of the chunk. -/
theorem commit (h : RefillingShard spec base k₀ n k a s w) (hk₀ : k₀ ≤ n)
    (hroom : n + k ≤ spec.kvLen .prefill a) (hout : OutputsHold spec .prefill n k a s w) :
    RefillingShard spec base k₀ n k a (s + 1) (updateKV spec s .prefill n k w) := by
  obtain ⟨hw, rfl⟩ := h
  refine ⟨⟨?_, ?_, fun t ht r hr c hc b hb => ?_, fun t ht r hr c hc hcb b hb => ?_⟩, ?_⟩
  · rw [updateKV_pending]
    exact hw.idle
  · rw [updateKV_activeClIdx]
    exact hw.active
  · rw [updateKV_activeClIdx, updateKV_cell ht hroom hr (by omega) hb, if_neg (by omega)]
    exact hw.kept t ht r hr c hc b hb
  · have hlt : c < n + k := by
      split_ifs at hcb <;> omega
    rw [updateKV_activeClIdx, updateKV_produced, updateKV_cell ht hroom hr (by omega) hb]
    split_ifs with hin
    · have hcell := hout t ht hin.1 r hr (c - n) (by omega) b hb
      rwa [Nat.add_sub_cancel' hin.2.1] at hcell
    · refine hw.written t ht r hr c hc ?_ b hb
      split_ifs at hcb ⊢ <;> omega
  · rw [updateKV_activeClIdx]

/-- A shard without KV tensors has nothing to write back. -/
theorem skip (h : RefillingShard spec base k₀ n k a s w) (hs : spec.pairs s = []) :
    RefillingShard spec base k₀ n k a (s + 1) w := by
  obtain ⟨hw, ha⟩ := h
  refine ⟨⟨hw.idle, hw.active, hw.kept, fun t ht r hr c hc hcb b hb => ?_⟩, ha⟩
  have hne : t.shard ≠ s := fun heq => pairs_ne_of_hasTensor ht (heq ▸ hs)
  refine hw.written t ht r hr c hc ?_ b hb
  split_ifs at hcb ⊢ <;> omega

/-- A shard's part of a chunk. -/
theorem prefillShard (hk₀ : k₀ ≤ n) (hroom : n + k ≤ spec.kvLen .prefill a) (isFinal : Bool)
    (tokens : List τ) (s : ℕ) :
    Triple (RefillingShard spec base k₀ n k a s)
      (Geniex.prefillShard spec env isFinal a ⟨tokens, n, k, .prefill⟩ s)
      (fun _ => RefillingShard spec base k₀ n k a (s + 1)) (fun _ _ => True) := by
  refine Triple.when (fun _ => ?_) fun hskip w hw => ?_
  · refine Triple.bind (runShard tokens) fun _ => Triple.bind (R := fun _ =>
      RefillingShard spec base k₀ n k a (s + 1))
      (Triple.modify fun w hw => hw.1.commit hk₀ hroom hw.2) fun _ => ?_
    apply Triple.when
    · exact fun _ => Triple.modify fun w hw =>
        ⟨⟨hw.columns.idle, hw.columns.active, hw.columns.kept, hw.columns.written⟩, hw.active⟩
    · exact fun _ _ hw => hw
  · rw [not_not] at hskip
    exact hw.skip (spec.pairs_of_lmHeadOnly hskip.2)

end RefillingShard

section Prefill

variable {base : KVColumns} {k₀ n : ℕ}

/-- One chunk of a prefill that fits the largest context length. -/
theorem prefillChunk_refills (hk₀ : k₀ ≤ n) (isFinal : Bool) {chunk : List τ}
    (hroom : n + chunk.length ≤ spec.maxCl - spec.seqLenPrefill) :
    Triple (RefillingChunk spec base k₀ n) (prefillChunk spec env isFinal chunk)
      (fun _ => RefillingChunk spec base k₀ (n + chunk.length)) (fun _ _ => True) := by
  refine Triple.get fun w₁ hw₁ => ?_
  obtain ⟨hw, hn, hrow⟩ := hw₁
  set k := chunk.length with hk
  have hspec := promoteTarget_spec (w₁.nPast + k) spec.seqLenPrefill hw.active
  set a := promoteTarget spec (w₁.nPast + k) spec.seqLenPrefill w₁.activeClIdx with ha
  have hfit : n + k ≤ spec.kvLen .prefill a :=
    promoteTarget_room .prefill (n + k) hw.active hroom |>.trans_eq (by rw [ha, hn]; rfl)
  -- the promotion keeps the columns that have been filled
  have hcell : ∀ t, spec.hasTensor t = true → ∀ r < spec.rows t, ∀ c < n, ∀ b < spec.tokenSize t,
      reshapeAll spec (spec.kvLen .prefill w₁.activeClIdx) (spec.kvLen .prefill a) w₁.nPast w₁.kv t
          (cell (spec.kvLen .prefill a) (spec.tokenSize t) r c b) =
        w₁.kv t (cell (spec.kvLen .prefill w₁.activeClIdx) (spec.tokenSize t) r c b) :=
    fun t ht r hr c hc b hb =>
      reshapeAll_cell ht hr (hn ▸ hc) (hc.trans_le hrow) (by omega) hb
  refine Triple.bind (R := fun _ w => w = w₁.log (.step .prefill w₁.nPast k))
    (Triple.modify fun w hw => by rw [hw]) fun _ => Triple.bind (R := fun _ w =>
      w = { w₁.log (.step .prefill w₁.nPast k) with
        kv := reshapeAll spec (spec.kvLen .prefill w₁.activeClIdx) (spec.kvLen .prefill a)
          w₁.nPast w₁.kv
        activeClIdx := a })
    (Triple.modify fun w hw' => by rw [hw', promoteCL_eq (by exact hw.active)]; rfl) fun _ =>
    Triple.get fun w₂ hw₂ => ?_
  have hstart : RefillingShard spec base k₀ n k a 0 w₂ := by
    subst hw₂
    refine ⟨⟨hw.idle, hspec.2.1, fun t ht r hr c hc b hb => ?_,
      fun t ht r hr c hc hcb b hb => ?_⟩, rfl⟩
    · exact (hcell t ht r hr c (by omega) b hb).trans (hw.kept t ht r hr c hc b hb)
    · simp only [Nat.not_lt_zero, if_false] at hcb
      exact (hcell t ht r hr c hcb b hb).trans (hw.written t ht r hr c hc hcb b hb)
  have hpast : w₂.nPast = n := by rw [hw₂]; exact hn
  rw [hstart.active, hn]
  have hshards : Triple (RefillingShard spec base k₀ n k a 0) (Prog.forRange spec.shardCount
      (prefillShard spec env isFinal a ⟨chunk, n, k, .prefill⟩))
      (fun _ => RefillingShard spec base k₀ n k a spec.shardCount) (fun _ _ => True) :=
    Triple.forRange (I := RefillingShard spec base k₀ n k a) fun s _ =>
      RefillingShard.prefillShard hk₀ hfit isFinal chunk s
  have hquiet : Stable (Quietly spec w₂) (Prog.forRange spec.shardCount
      (prefillShard spec env isFinal a ⟨chunk, n, k, .prefill⟩)) :=
    Stable.forRange (fun s => prefillShard_quietly w₂ isFinal a _ s) spec.shardCount
  refine Triple.bind ((Triple.and hshards hquiet).conseq
    (fun w hw => by subst hw; exact ⟨hstart, Quietly.refl w⟩) (fun _ _ h => h)
    fun _ _ _ => trivial) fun _ => Triple.modify fun w hw => ?_
  obtain ⟨⟨hcols, hactive⟩, hq⟩ := hw
  refine ⟨⟨hcols.idle, hcols.active, hcols.kept, fun t ht r hr c hc hcb b hb => ?_⟩, ?_, ?_⟩
  · refine hcols.written t ht r hr c hc ?_ b hb
    rw [if_pos (shard_lt_of_hasTensor ht)]
    exact hcb
  · show w.nPast + k = n + k
    rw [hq.nPast, hpast]
  · exact hactive ▸ hfit

/-- A whole prefill. -/
theorem prefillLoop_refills (fuel : ℕ) (tokens : List τ) (last : ℕ) (hk₀ : k₀ ≤ n)
    (hfuel : tokens.length ≤ fuel) (hroom : n + tokens.length ≤ spec.maxCl - spec.seqLenPrefill) :
    Triple (RefillingChunk spec base k₀ n) (prefillLoop spec env fuel tokens last)
      (fun _ => RefillingChunk spec base k₀ (n + tokens.length)) (fun _ _ => True) := by
  have hpos : 0 < spec.seqLenPrefill := spec.seqLen_pos .prefill
  induction fuel generalizing n tokens last with
  | zero =>
    rw [Nat.le_zero.mp hfuel]
    exact Triple.pure fun _ hw => hw
  | succ fuel ih =>
    refine Triple.ite (fun hnil => Triple.pure fun _ hw => by rw [hnil]; exact hw) fun hne => ?_
    have hlen : 0 < tokens.length := List.length_pos_of_ne_nil hne
    have htake : (tokens.take spec.seqLenPrefill).length ≤ tokens.length :=
      List.length_take_le' _ _
    have hsplit : (tokens.take spec.seqLenPrefill).length +
        (tokens.drop spec.seqLenPrefill).length = tokens.length := by
      rw [← List.length_append, List.take_append_drop]
    have hrest := ih (n := n + (tokens.take spec.seqLenPrefill).length)
      (tokens.drop spec.seqLenPrefill) (tokens.take spec.seqLenPrefill).length (by omega)
      (by rw [List.length_drop]; omega) (by omega)
    rw [Nat.add_assoc, hsplit] at hrest
    exact Triple.bind (prefillChunk_refills hk₀ _ (by omega)) fun _ => hrest

end Prefill

/-! ## One eviction -/

/-- At an unchanged stride nothing moves. -/
theorem restrideActive_self (phase : Phase) (n : ℕ) (w : World τ ρ I) :
    restrideActive spec phase phase n w = w := by
  unfold restrideActive
  rw [reshapeAll_self]
  rfl

/-- A restride keeps the columns that both strides have. -/
theorem restrideActive_cell {old new : Phase} {n r c b : ℕ} {w : World τ ρ I} {t : KVTensor}
    (ht : spec.hasTensor t = true) (hr : r < spec.rows t) (hn : c < n)
    (hold : c < spec.kvLen old w.activeClIdx) (hnew : c < spec.kvLen new w.activeClIdx)
    (hb : b < spec.tokenSize t) :
    (restrideActive spec old new n w).kv t
        (cell (spec.kvLen new w.activeClIdx) (spec.tokenSize t) r c b) =
      w.kv t (cell (spec.kvLen old w.activeClIdx) (spec.tokenSize t) r c b) :=
  reshapeAll_cell ht hr hn hold hnew hb

variable [Token τ]

/-- The state that an eviction at the stride of `phase` prefills from: the prefix alone, at the
prefill stride. -/
def evictionStart (spec : LLMSpec) (phase : Phase) (k d : ℕ) (w : World τ ρ I) : World τ ρ I :=
  { restrideActive spec phase .prefill k
      (w.log (.evictEntry w.nPast w.tokenHistory.length k d)) with
    nPast := k, tokenHistory := w.tokenHistory.take k }

/-- An eviction prefills the surviving tokens on top of the prefix, and restores the stride. -/
theorem slideWindowEvict_inv {phase : Phase} {k d : ℕ} {w w' : World τ ρ I} (h : Sized spec w)
    (hd : d ≠ 0) (hkd : k + d ≤ w.nPast)
    (hrun : slideWindowEvict spec env d k (phase = .decode) w = (.ok (), w')) :
    ∃ last w₂, prefillChunks spec env (w.tokenHistory.drop (k + d)) (evictionStart spec phase k d w) =
        (.ok last, w₂) ∧
      w' = (restrideActive spec .prefill phase w₂.nPast w₂).log (.evicted k d) := by
  have hsize := h.size
  have htake : resizeHistory w.tokenHistory k = w.tokenHistory.take k := by
    unfold resizeHistory
    rw [show k - w.tokenHistory.length = 0 by omega, List.replicate_zero, List.append_nil]
  have htail : (w.tokenHistory.drop (k + d)).take (w.nPast - (k + d)) =
      w.tokenHistory.drop (k + d) :=
    List.take_of_length_le (by rw [List.length_drop]; omega)
  unfold slideWindowEvict at hrun
  rw [Prog.when, if_pos hd, Prog.get_bind, Prog.modify_bind, htail] at hrun
  cases phase with
  | prefill =>
    rw [Prog.when, if_neg (by decide), Prog.pure_bind', Prog.modify_bind] at hrun
    obtain ⟨last, w₂, hprefill, hrest⟩ := Prog.bind_eq_ok hrun
    refine ⟨last, w₂, ?_, ?_⟩
    · unfold evictionStart
      rw [restrideActive_self, ← htake]
      exact hprefill
    · rw [restrideActive_self]
      cases hrest
      rfl
  | decode =>
    rw [Prog.when, if_pos (by decide), Prog.modify_bind, Prog.modify_bind] at hrun
    obtain ⟨last, w₂, hprefill, hrest⟩ := Prog.bind_eq_ok hrun
    refine ⟨last, w₂, ?_, ?_⟩
    · unfold evictionStart
      rw [← htake]
      exact hprefill
    · cases hrest
      rfl

/-- An eviction at the stride of `phase` leaves, in the columns `[0, k)`, what they held, and after
them what a prefill of the surviving tokens writes on top of that prefix; and every column of the
history is there, at the stride the prefill writes at and at that of `phase`. -/
structure Evicted (spec : LLMSpec) (env : Env τ ρ I) (phase : Phase) (k d : ℕ)
    (w w' : World τ ρ I) : Prop where
  history : w'.tokenHistory = w.tokenHistory.take k ++ w.tokenHistory.drop (k + d)
  nPast : w'.nPast = w'.tokenHistory.length
  active : w.activeClIdx ≤ w'.activeClIdx ∧ w'.activeClIdx < spec.numCl
  present : ∀ c < w'.nPast,
    c < spec.kvLen .prefill w'.activeClIdx ∧ c < spec.kvLen phase w'.activeClIdx
  anchored : ∀ t, spec.hasTensor t = true → ∀ r < spec.rows t, ∀ c < k, ∀ b < spec.tokenSize t,
    w'.kv t (cell (spec.kvLen phase w'.activeClIdx) (spec.tokenSize t) r c b) =
      w.kv t (cell (spec.kvLen phase w.activeClIdx) (spec.tokenSize t) r c b)
  onPrefix : ∀ t, spec.hasTensor t = true → ∀ r < spec.rows t, ∀ c < k, ∀ b < spec.tokenSize t,
    (evictionStart spec phase k d w).kv t
        (cell (spec.kvLen .prefill w.activeClIdx) (spec.tokenSize t) r c b) =
      w.kv t (cell (spec.kvLen phase w.activeClIdx) (spec.tokenSize t) r c b)
  recomputed : ∃ last w₂, prefillChunks spec env (w.tokenHistory.drop (k + d))
      (evictionStart spec phase k d w) = (.ok last, w₂) ∧
    ∀ t, spec.hasTensor t = true → ∀ r < spec.rows t, ∀ c, k ≤ c → c < w'.nPast →
      ∀ b < spec.tokenSize t,
        w'.kv t (cell (spec.kvLen phase w'.activeClIdx) (spec.tokenSize t) r c b) =
            w₂.kv t (cell (spec.kvLen .prefill w₂.activeClIdx) (spec.tokenSize t) r c b) ∧
          w₂.kv t (cell (spec.kvLen .prefill w₂.activeClIdx) (spec.tokenSize t) r c b) =
            w₂.produced t r c b

/-- An eviction loses nothing, if the prefix is in its rows and the history that is left fits the
prefill stride of the largest context length. -/
theorem evicted_of_room {phase : Phase} {k d : ℕ} {w w' : World τ ρ I} (h : Sized spec w)
    (hidle : w.pending = []) (hd : d ≠ 0) (hkd : k + d ≤ w.nPast)
    (hrow : k ≤ spec.kvLen .prefill w.activeClIdx)
    (hroom : w.nPast - d ≤ spec.maxCl - spec.seqLenPrefill)
    (hrun : slideWindowEvict spec env d k (phase = .decode) w = (.ok (), w')) :
    Evicted spec env phase k d w w' := by
  obtain ⟨hn, hhistory⟩ := (slideWindowEvict_sized h hd hkd _).ok rfl hrun
  obtain ⟨last, w₂, hprefill, rfl⟩ := slideWindowEvict_inv h hd hkd hrun
  have hsize := h.size
  have hwide : ∀ i, spec.kvLen .prefill i ≤ spec.kvLen phase i := fun i => by
    cases phase with
    | prefill => exact le_rfl
    | decode => exact spec.kvLen_prefill_le i
  set start := evictionStart spec phase k d w with hstart
  have hprefix : ∀ t, spec.hasTensor t = true → ∀ r < spec.rows t, ∀ c < k, ∀ b < spec.tokenSize t,
      start.kv t (cell (spec.kvLen .prefill w.activeClIdx) (spec.tokenSize t) r c b) =
        w.kv t (cell (spec.kvLen phase w.activeClIdx) (spec.tokenSize t) r c b) :=
    fun t ht r hr c hc b hb => restrideActive_cell (w := w.log _) ht hr hc
      ((hc.trans_le hrow).trans_le (hwide _)) (hc.trans_le hrow) hb
  set tail := w.tokenHistory.drop (k + d) with htail
  have hlen : k + tail.length = w.nPast - d := by
    rw [htail, List.length_drop]
    omega
  -- the prefill starts with nothing after the prefix
  have hchunk : RefillingChunk spec
      (fun t r c b => w.kv t (cell (spec.kvLen phase w.activeClIdx) (spec.tokenSize t) r c b)) k k
      start :=
    ⟨⟨hidle, h.active, hprefix, fun t ht r hr c hc hcb => absurd hcb (not_lt.mpr hc)⟩, rfl, hrow⟩
  have hroom' : k + tail.length ≤ spec.maxCl - spec.seqLenPrefill := by rwa [hlen]
  obtain ⟨hcols, hpast, hfit⟩ :=
    (prefillLoop_refills _ tail 0 le_rfl le_rfl hroom').ok hchunk hprefill
  have happended : Appended spec tail start w₂ :=
    (prefillLoop_appended _ tail 0 start h.active le_rfl).ok rfl hprefill
  have hactive := happended.active h.active
  have hcell : ∀ t, spec.hasTensor t = true → ∀ r < spec.rows t, ∀ c < k + tail.length,
      ∀ b < spec.tokenSize t,
      (restrideActive spec .prefill phase w₂.nPast w₂).kv t
          (cell (spec.kvLen phase w₂.activeClIdx) (spec.tokenSize t) r c b) =
        w₂.kv t (cell (spec.kvLen .prefill w₂.activeClIdx) (spec.tokenSize t) r c b) :=
    fun t ht r hr c hc b hb => restrideActive_cell ht hr (by omega) (by omega)
      ((hc.trans_le hfit).trans_le (hwide _)) hb
  have hsum : w₂.nPast = k + tail.length := hpast
  refine ⟨hhistory, ?_, hactive, fun c hc => ?_, fun t ht r hr c hc b hb => ?_, hprefix,
    last, w₂, hprefill, fun t ht r hr c hc hcn b hb => ?_⟩
  · rw [hhistory, hn, List.length_append, List.length_take, List.length_drop]
    omega
  · have hcl : c < spec.kvLen .prefill w₂.activeClIdx := by
      change c < w₂.nPast at hc
      omega
    exact ⟨hcl, hcl.trans_le (hwide _)⟩
  · exact (hcell t ht r hr c (by omega) b hb).trans (hcols.kept t ht r hr c hc b hb)
  · have hlt : c < k + tail.length := by
      change c < w₂.nPast at hcn
      omega
    exact ⟨hcell t ht r hr c hlt b hb, hcols.written t ht r hr c hc hlt b hb⟩

omit [Token τ] in
/-- An eviction whose columns are all there leaves no more than that stride holds. -/
theorem Evicted.room {phase : Phase} {k d : ℕ} {w w' : World τ ρ I}
    (h : Evicted spec env phase k d w w') : w'.nPast ≤ spec.maxCl - spec.seqLenPrefill := by
  rcases Nat.eq_zero_or_pos w'.nPast with hzero | hpos
  · rw [hzero]
    exact Nat.zero_le _
  · obtain ⟨hlast, -⟩ := h.present (w'.nPast - 1) (by omega)
    have hmax := spec.kvLen_le_last (p := .prefill) h.active.2
    have hseq : spec.seqLen .prefill = spec.seqLenPrefill := rfl
    omega

/-! ## Nothing is queued without a pool -/

/-- Write-backs are queued only on a pool. -/
def Pooled (env : Env τ ρ I) (w : World τ ρ I) : Prop := w.pending ≠ [] → env.decodePool = true

namespace Pooled

omit [Token τ]

variable {w : World τ ρ I}

theorem settle (h : Pooled env w) (done : KVJob → Bool) : Pooled env (settle spec done w) := by
  refine fun hne => h fun hnil => hne ?_
  show w.pending.filter _ = []
  rw [hnil]
  rfl

theorem background (h : Pooled env w) : Pooled env (background spec env w) := by
  unfold Geniex.background
  split_ifs
  · exact h
  · exact h.settle _

theorem runShard (shard : ℕ) (phase : Phase) (clIdx : ℕ) (ctx : RunContext τ) :
    Stable (Pooled env) (runShard spec env shard phase clIdx ctx : Run τ ρ I Unit) := by
  refine Stable.bind (Stable.modify fun _ hw => hw.background) fun _ => Stable.get fun w₁ w hw => ?_
  unfold execGraph
  dsimp only
  cases env.exec w.tick _ _ with
  | none => exact hw
  | some out => exact hw

theorem updateKV (h : Pooled env w) (s : ℕ) (phase : Phase) (off n : ℕ) :
    Pooled env (updateKV spec s phase off n w) := by
  unfold Pooled
  rw [updateKV_pending]
  exact h

theorem promoteCL (h : Pooled env w) (required capacity stride : ℕ) :
    Pooled env (promoteCL spec required capacity stride w) := by
  unfold Geniex.promoteCL
  dsimp only
  split_ifs <;> exact h

theorem writeBack (h : Pooled env w) (s off : ℕ) : Pooled env (writeBack spec env s off w) := by
  unfold Geniex.writeBack
  split_ifs with hpool
  · exact fun _ => hpool
  · exact h.updateKV _ _ _ _

theorem prefillShard (isFinal : Bool) (clIdx : ℕ) (ctx : RunContext τ) (s : ℕ) :
    Stable (Pooled env) (prefillShard spec env isFinal clIdx ctx s : Run τ ρ I Unit) :=
  Stable.when fun _ => Stable.bind (runShard _ _ _ _) fun _ =>
    Stable.bind (Stable.modify fun _ hw => hw.updateKV _ _ _ _) fun _ =>
      Stable.when fun _ => Stable.modify fun _ hw => hw

theorem decodeShard (clIdx : ℕ) (ctx : RunContext τ) (s : ℕ) :
    Stable (Pooled env) (decodeShard spec env clIdx ctx s : Run τ ρ I Unit) :=
  Stable.bind (runShard _ _ _ _) fun _ =>
    Stable.bind (Stable.modify fun _ hw => hw.writeBack _ _) fun _ =>
      Stable.when fun _ => Stable.modify fun _ hw => hw

theorem call : CallInvariant spec env (Pooled env : World τ ρ I → Prop) where
  plain w w' _ hp _ _ hw := by
    unfold Pooled
    rw [hp]
    exact hw
  log _ _ _ hw := hw
  wait := Stable.get fun _ => Stable.ite (fun _ => Stable.pure _) fun _ =>
    Stable.ite (fun _ => Stable.throw _) fun _ => Stable.modify fun _ hw => hw.settle _
  promote _ _ _ _ hw := hw.promoteCL _ _ _
  chunk isFinal chunk :=
    Stable.get fun _ => Stable.bind (Stable.modify fun _ hw => hw) fun _ =>
      Stable.bind (Stable.modify fun _ hw => hw.promoteCL _ _ _) fun _ => Stable.get fun _ =>
      Stable.bind (Stable.forRange (prefillShard _ _ _) _) fun _ => Stable.modify fun _ hw => hw
  forward tok :=
    Stable.get fun _ => Stable.bind (Stable.modify fun _ hw => hw) fun _ =>
      Stable.bind (Stable.modify fun _ hw => hw.promoteCL _ _ _) fun _ => Stable.get fun _ =>
      Stable.bind (Stable.forRange (decodeShard _ _) _) fun _ => Stable.modify fun _ hw => hw

end Pooled

theorem Reachable.pooled {w : World τ ρ I} (h : Reachable spec env w) : Pooled env w := by
  induction h with
  | init env providers kv outs hiddenIn => exact fun hne => absurd rfl hne
  | @generate env w w' r prompt cfg callback _ hrun _ ih =>
    have hkeep : Pooled env (Geniex.generate spec env prompt cfg callback w).2 :=
      (Pooled.call.generate prompt cfg callback).snd ih
    rw [hrun] at hkeep
    exact hkeep
  | reset _ ih => exact ih
  | load _ hv ih _ =>
    rw [loaded_eq hv.counted]
    exact ih
  | install _ _ ih => exact ih
  | idle done _ _ ih => exact ih.settle done

/-! ## The evictions of a call -/

/-- Nothing is queued and the rows at the stride of `phase` have room for the history. -/
structure AtStride (spec : LLMSpec) (phase : Phase) (w : World τ ρ I) : Prop where
  idle : w.pending = []
  fits : Fits spec phase w

/-- The states in which a call makes room for `nFit` tokens at the stride of a phase: at its entry,
and in a step of the decode loop. -/
inductive MakesRoomAt (spec : LLMSpec) (env : Env τ ρ I) (cfg : GenerationConfig) :
    Phase → ℕ → World τ ρ I → Prop
  | entry {w₀ : World τ ρ I} (prompt : List τ) (h : Reachable spec env w₀)
      (hstride : AtStride spec .prefill w₀) :
      MakesRoomAt spec env cfg .prefill prompt.length
        (prepareSampler cfg prompt (w₀.log (.enter w₀.nPast prompt.length)))
  | step {w₀ w w₁ : World τ ρ I} {prompt : List τ} {callback : List Int32 → CallbackAnswer} {n : ℕ}
      {tok : τ} {out : List τ} (h : Reachable spec env w₀)
      (hhead : DecodeHead spec env prompt cfg callback w₀ (n + 1) tok out w)
      (heos : isEos spec tok = false)
      (hanswer : callback ((out ++ [tok]).map Token.id) = .continue)
      (hwait : waitPool spec env (w.log (.emitted tok)) = (.ok (), w₁)) :
      MakesRoomAt spec env cfg .decode 1 w₁

/-- What `try_slide` asks for before it evicts `d` tokens to make room for `nFit`. -/
structure Slides (spec : LLMSpec) (cfg : GenerationConfig) (nFit d : ℕ) (w : World τ ρ I) :
    Prop where
  window : cfg.slidingWindow = true
  full : spec.maxCl < w.nPast + nFit
  amount : computeSlideDiscard w.nPast nFit spec.maxCl (nKeepOf spec cfg) = d
  pos : d ≠ 0
  fits : w.nPast - d + nFit ≤ spec.maxCl

variable {cfg : GenerationConfig} {phase : Phase} {nFit d : ℕ} {w w' : World τ ρ I}

omit [Token τ] in
/-- Waiting for the pool leaves nothing queued. -/
theorem waitPool_idle (h : Pooled env w) (hrun : waitPool spec env w = (.ok (), w')) :
    w'.pending = [] := by
  unfold waitPool at hrun
  rw [Prog.get_bind] at hrun
  split_ifs at hrun with hnone hzero
  · cases hrun
    rcases hnone with hnil | hpool
    · exact hnil
    · by_contra hne
      rw [h hne] at hpool
      cases hpool
  · cases hrun
  · cases hrun
    show (w.pending.filter fun _ => !true) = []
    exact List.filter_false _

omit [Token τ] in
theorem prepareSampler_pending (prompt : List τ) (w : World τ ρ I) :
    (prepareSampler cfg prompt w).pending = w.pending := by
  unfold prepareSampler buildSampler feedSampler
  split_ifs <;> rfl

/-- The states of a decode loop are counted. -/
theorem DecodeHead.counted {prompt : List τ} {callback : List Int32 → CallbackAnswer}
    {w₀ : World τ ρ I} {n : ℕ} {tok : τ} {out : List τ}
    (h : DecodeHead spec env prompt cfg callback w₀ n tok out w) (hc : Counted spec w₀) :
    Counted spec w := by
  induction h with
  | first _ hprefill =>
    have hw := ((prefillStage_follows w₀ hc prompt cfg).ok rfl hprefill).counted
    exact ⟨hw.size, hw.le, hw.active, hw.fits, hw.entries⟩
  | @next _ tok _ _ w _ _ h heos hanswer hstep hsample ih =>
    have hlog := (log_quietly (e := .emitted tok) (by trivial) w).counted ih
    have hw := ((decodeStep_follows _ hlog cfg tok).ok rfl hstep).counted
    exact Quietly.counted ((sampleNextToken_quietly _ _ _).ok (Quietly.refl _) hsample) hw

/-- What is known of a state in which a call makes room. -/
theorem MakesRoomAt.counted (h : MakesRoomAt spec env cfg phase nFit w) :
    Counted spec w ∧ w.pending = [] ∧ (phase = .prefill → Fits spec .prefill w) := by
  cases h with
  | @entry w₀ prompt h hstride =>
    have hq : Quietly spec w₀ (prepareSampler cfg prompt (w₀.log (.enter w₀.nPast prompt.length))) :=
      (log_quietly (by trivial) w₀).trans (prepareSampler_quietly cfg prompt _)
    exact ⟨hq.counted h.counted, (prepareSampler_pending prompt _).trans hstride.idle, fun _ =>
      hstride.fits.mono hq.nPast.le (hq.active h.counted.active).1 (hq.active h.counted.active).2⟩
  | @step w₀ w _ prompt callback n tok out h hhead heos hanswer hwait =>
    have hpooled : Pooled env w := hhead.keeps Pooled.call h.pooled
    have hlog : Quietly spec w (w.log (.emitted tok)) := log_quietly (by trivial) w
    refine ⟨?_, waitPool_idle (w := w.log (.emitted tok)) hpooled hwait, nofun⟩
    exact Quietly.counted ((waitPool_quietly w).ok hlog hwait) (hhead.counted h.counted)

/-- **Which evictions lose nothing.** In every state in which a call makes room, at the prefill
or the decode stride, for every prefix and every amount that `try_slide` passes: the eviction keeps
the prefix, recomputes the rest on top of it and leaves every column of the history in its row, if
and only if the history that is left fits the prefill stride of the largest context length. -/
theorem evicted_iff (hat : MakesRoomAt spec env cfg phase nFit w) (hslides : Slides spec cfg nFit d w)
    (hrun : slideWindowEvict spec env d (nKeepOf spec cfg) (phase = .decode) w = (.ok (), w')) :
    Evicted spec env phase (nKeepOf spec cfg) d w w' ↔
      w.nPast - d ≤ spec.maxCl - spec.seqLenPrefill := by
  obtain ⟨hc, hidle, hfits⟩ := hat.counted
  have hsized : Sized spec w := ⟨hc.size, hc.active⟩
  have hkd : nKeepOf spec cfg + d ≤ w.nPast := by
    have hle := computeSlideDiscard_le w.nPast nFit spec.maxCl (nKeepOf spec cfg)
    rw [hslides.amount] at hle
    have hpos := hslides.pos
    omega
  refine ⟨fun h => ?_, fun hroom =>
    evicted_of_room hsized hidle hslides.pos hkd ?_ hroom hrun⟩
  · have hn := ((slideWindowEvict_sized hsized hslides.pos hkd _).ok rfl hrun).1
    exact hn ▸ h.room
  · -- the prefix is in its rows: the history is, or no larger context length is left
    have hlast : w.activeClIdx + 1 = spec.numCl →
        nKeepOf spec cfg ≤ spec.kvLen .prefill w.activeClIdx := fun hlast => by
      rw [spec.kvLen_last hlast]
      show _ ≤ spec.maxCl - spec.seqLenPrefill
      omega
    cases hat with
    | entry prompt h hstride => exact (hfits rfl).elim (fun h => by omega) hlast
    | step h hhead heos hanswer hwait =>
      refine hc.fits.elim (fun hle => ?_) hlast
      have hmax := spec.kvLen_le_last (p := .decode) hc.active
      have hseq : spec.seqLen .decode = spec.seqLenDecode := rfl
      have hpos := spec.decode_pos
      have hfull := hslides.full
      omega

/-! ## A small context length -/

/-- Greedy decoding with a window that keeps `k` tokens. -/
def tinyWindow (k : Int32) : GenerationConfig :=
  { tinyCfg 5 with slidingWindow := true, slidingWindowNKeep := k }

/-- The head of the decode loop after the prompt `[0]`, at a context length of 4 with AR 2 and 1. -/
def tinyFirst (k : Int32) : World Int32 Unit Unit :=
  { (prefillStage fourColumns (tinyEnv 0 0) [0] (tinyWindow k)
    (tinyWorld fourColumns)).2 with clockKeeper := false }

theorem tinyFirst_head {k : Int32}
    (hprefill : (prefillStage (tinySpec [4] 2 1) (tinyEnv 0 0) [0] (tinyWindow k)
      (tinyWorld (tinySpec [4] 2 1))).1 = .ok 1) :
    DecodeHead (tinySpec [4] 2 1) (tinyEnv 0 0) [0] (tinyWindow k) (fun _ => .continue)
      (tinyWorld (tinySpec [4] 2 1)) 5 1 [] (tinyFirst k) :=
  DecodeHead.first false (eq_of_result hprefill)

/-- The head of the loop one step later. -/
def tinyNext (k : Int32) (w : World Int32 Unit Unit) : World Int32 Unit Unit :=
  (sampleNextToken fourColumns (tinyEnv 0 0) .decode 0
    (decodeStep fourColumns (tinyEnv 0 0) (tinyWindow k) 1 (w.log (.emitted 1))).2).2

theorem tinyNext_head {k : Int32} {n : ℕ} {out : List Int32} {w : World Int32 Unit Unit}
    (h : DecodeHead (tinySpec [4] 2 1) (tinyEnv 0 0) [0] (tinyWindow k) (fun _ => .continue)
      (tinyWorld (tinySpec [4] 2 1)) (n + 1) 1 out w)
    (hstep : (decodeStep (tinySpec [4] 2 1) (tinyEnv 0 0) (tinyWindow k) 1
      (w.log (.emitted 1))).1 = .ok ())
    (hsample : (sampleNextToken (tinySpec [4] 2 1) (tinyEnv 0 0) .decode 0
      (decodeStep (tinySpec [4] 2 1) (tinyEnv 0 0) (tinyWindow k) 1
        (w.log (.emitted 1))).2).1 = .ok 1) :
    DecodeHead (tinySpec [4] 2 1) (tinyEnv 0 0) [0] (tinyWindow k) (fun _ => .continue)
      (tinyWorld (tinySpec [4] 2 1)) n 1 (out ++ [1]) (tinyNext k w) :=
  DecodeHead.next h (by decide) rfl (eq_of_result hstep) (eq_of_result hsample)

/-- The state of the first step that has no room, with a history of four tokens. -/
def tinyFull (k : Int32) : World Int32 Unit Unit :=
  (tinyNext k (tinyNext k (tinyNext k (tinyFirst k)))).log (.emitted 1)

/-- What its eviction leaves. -/
def tinyEvict (k : Int32) (d : ℕ) : Except Err Unit × World Int32 Unit Unit :=
  slideWindowEvict fourColumns (tinyEnv 0 0) d (nKeepOf fourColumns (tinyWindow k))
    (Phase.decode = .decode) (tinyFull k)

theorem tinyFull_makesRoom {k : Int32} (hk : k = 0 ∨ k = 3) :
    MakesRoomAt (tinySpec [4] 2 1) (tinyEnv 0 0) (tinyWindow k) .decode 1 (tinyFull k) := by
  have hwait : ∀ w : World Int32 Unit Unit,
      waitPool (tinySpec [4] 2 1) (tinyEnv 0 0) w = (.ok (), w) := by
    intro w
    unfold waitPool
    rw [Prog.get_bind, if_pos (show _ ∨ (tinyEnv 0 0).decodePool = false from Or.inr rfl)]
    rfl
  refine .step (tinyWorld_reachable _ _) (tinyNext_head (tinyNext_head (tinyNext_head
    (tinyFirst_head ?_) ?_ ?_) ?_ ?_) ?_ ?_) (by decide) rfl (hwait _)
  all_goals obtain rfl | rfl := hk
  all_goals decide +kernel

/-- A window that keeps nothing: two tokens stay. -/
theorem evicted_iff_tiny :
    Evicted (tinySpec [4] 2 1) (tinyEnv 0 0) .decode 0 2 (tinyFull 0) (tinyEvict 0 2).2 :=
  (evicted_iff (tinyFull_makesRoom (Or.inl rfl))
    ⟨rfl, by decide +kernel, by decide +kernel, by decide, by decide +kernel⟩
    (eq_of_result (by decide +kernel))).mpr (by decide +kernel)

/-- A window that keeps three tokens, which the prefill stride does not hold: the third of them is
overwritten. -/
theorem evicts_prefix :
    MakesRoomAt (tinySpec [4] 2 1) (tinyEnv 0 0) (tinyWindow 3) .decode 1 (tinyFull 3) ∧
      Slides (tinySpec [4] 2 1) (tinyWindow 3) 1 1 (tinyFull 3) ∧
      (tinyEvict 3 1).1 = .ok () ∧ (tinyEvict 3 1).2.activeClIdx = 0 ∧
      (tinyEvict 3 1).2.kv ⟨0, 0, true⟩ (cell 3 1 0 2 0) ≠
        (tinyFull 3).kv ⟨0, 0, true⟩ (cell 3 1 0 2 0) ∧
      ¬Evicted (tinySpec [4] 2 1) (tinyEnv 0 0) .decode 3 1 (tinyFull 3) (tinyEvict 3 1).2 := by
  have hactive : (tinyEvict 3 1).2.activeClIdx = 0 ∧ (tinyFull 3).activeClIdx = 0 := by
    decide +kernel
  have hlost : (tinyEvict 3 1).2.kv ⟨0, 0, true⟩ (cell 3 1 0 2 0) ≠
      (tinyFull 3).kv ⟨0, 0, true⟩ (cell 3 1 0 2 0) := by decide +kernel
  refine ⟨tinyFull_makesRoom (Or.inr rfl),
    ⟨rfl, by decide +kernel, by decide +kernel, by decide, by decide +kernel⟩,
    by decide +kernel, hactive.1, hlost, fun h => hlost ?_⟩
  have hcell := h.anchored ⟨0, 0, true⟩ (by decide) 0 (by decide) 2 (by decide) 0 (by decide)
  rw [hactive.1, hactive.2] at hcell
  exact hcell

end Geniex
