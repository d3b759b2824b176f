import Geniex.LLM.CacheRuns
import Geniex.LLM.ExitRestride

/-!
# Between calls

* `resting_of_calm`: in which runs the state between operations is at rest.
* `seesPast_of_fine`: in which runs every execution sees exactly the causal past.
-/

namespace Geniex

open FlatMem Prog

variable {τ ρ I : Type} {spec : LLMSpec} {env : Env τ ρ I}

/-- An exception left a decode loop only without a pool and with one AR for both phases. -/
def Calm (spec : LLMSpec) (trace : List (Event τ I)) : Prop :=
  ∀ pool, Event.abort pool ∈ trace → pool = false ∧ spec.seqLenPrefill = spec.seqLenDecode

theorem Calm.of_suffix {old trace : List (Event τ I)} (h : Calm spec trace) (hs : old <:+ trace) :
    Calm spec old := fun pool hm => h pool (hs.subset hm)

/-! The three conditions on a log can be computed. -/

def Event.hasRoom (spec : LLMSpec) : Event τ I → Bool
  | .step p n k => n + k ≤ spec.maxCl - spec.seqLen p
  | _ => true

def Event.isWhole (spec : LLMSpec) : Event τ I → Bool
  | .enter n len => 0 < len || n ≤ spec.maxCl - spec.seqLenPrefill
  | _ => true

def Event.isCalm (spec : LLMSpec) : Event τ I → Bool
  | .abort pool => !pool && spec.seqLenPrefill = spec.seqLenDecode
  | _ => true

instance (trace : List (Event τ I)) : Decidable (Fine spec trace) :=
  decidable_of_iff (∀ e ∈ trace, e.hasRoom spec = true)
    ⟨fun h p n k hm => by simpa [Event.hasRoom] using h _ hm,
      fun h e hm => by cases e <;> simp only [Event.hasRoom, decide_eq_true_eq] ; exact h _ _ _ hm⟩

instance (trace : List (Event τ I)) : Decidable (Whole spec trace) :=
  decidable_of_iff (∀ e ∈ trace, e.isWhole spec = true)
    ⟨fun h n len hm => by simpa [Event.isWhole] using h _ hm,
      fun h e hm => by
        cases e <;> simp only [Event.isWhole, Bool.or_eq_true, decide_eq_true_eq]
        exact h _ _ hm⟩

instance (trace : List (Event τ I)) : Decidable (Calm spec trace) :=
  decidable_of_iff (∀ e ∈ trace, e.isCalm spec = true)
    ⟨fun h pool hm => by simpa [Event.isCalm] using h _ hm,
      fun h e hm => by
        cases e <;> simp only [Event.isCalm, Bool.and_eq_true, decide_eq_true_eq]
        simpa using h _ hm⟩

/-- The rows are laid out at the prefill stride, with every column that the history has there. -/
def RowsAtPrefill (spec : LLMSpec) (w : World τ ρ I) : Prop :=
  ∀ t, spec.hasTensor t = true → ∀ r < spec.rows t,
    ∀ c < min w.nPast (spec.kvLen .prefill w.activeClIdx), ∀ b < spec.tokenSize t,
      w.kv t (cell (spec.kvLen .prefill w.activeClIdx) (spec.tokenSize t) r c b) = w.produced t r c b

variable [Token τ]

theorem AtPrefill.load {env' : Env τ ρ I} {w v : World τ ρ I} (hw : AtPrefill spec env false w)
    (hv : AtPrefill spec env' false v) (hc : Counted spec v) :
    AtPrefill spec env false (loaded spec v w) := by
  rw [loaded_eq hc]
  have hnil := hw.sound.pending_nil
  have hempty : ∀ j, j ∉ w.pending := by simp [hnil]
  have hsub : ∀ {e : Event τ I}, e ≠ .cleared w.pending.length →
      e ∈ Event.cleared w.pending.length :: (v.trace ++ w.trace) → e ∈ v.trace ∨ e ∈ w.trace :=
    fun hne hm => List.mem_append.mp (List.mem_of_ne_of_mem hne hm)
  have hfine : Fine spec (Event.cleared w.pending.length :: (v.trace ++ w.trace)) →
      Fine spec v.trace ∧ Fine spec w.trace := fun hf =>
    ⟨fun p n k hm => hf p n k (List.mem_cons_of_mem _ (List.mem_append_left _ hm)),
      fun p n k hm => hf p n k (List.mem_cons_of_mem _ (List.mem_append_right _ hm))⟩
  refine ⟨⟨⟨hv.sound.active, fun j hj => absurd hj (hempty j), fun x hx => ?_⟩,
    hw.sound.clockKeeper, fun j hj => absurd hj (hempty j), fun hf hwhole x hx => ?_,
    fun hf => ⟨fun t ht r hr c hc b hb _ => ?_, fun j hj => absurd hj (hempty j)⟩⟩, hv.fits,
    fun hf => hv.bounded (hfine hf).1⟩
  · rcases hsub (by simp) hx with hx | hx
    · obtain ⟨hstep, hrow⟩ := hv.sound.queued.writes x hx
      exact ⟨List.mem_cons_of_mem _ (List.mem_append_left _ hstep), hrow⟩
    · obtain ⟨hstep, hrow⟩ := hw.sound.queued.writes x hx
      exact ⟨List.mem_cons_of_mem _ (List.mem_append_right _ hstep), hrow⟩
  · have hwv : Whole spec v.trace := fun n len hm =>
      hwhole n len (List.mem_cons_of_mem _ (List.mem_append_left _ hm))
    have hww : Whole spec w.trace := fun n len hm =>
      hwhole n len (List.mem_cons_of_mem _ (List.mem_append_right _ hm))
    rcases hsub (by simp) hx with hx | hx
    · exact hv.sound.seen (hfine hf).1 hwv x hx
    · exact hw.sound.seen (hfine hf).2 hww x hx
  · have hlt : c < spec.kvLen .prefill v.activeClIdx := hc.trans_le (min_le_right _ _)
    have hmono : spec.kvLen .prefill v.activeClIdx ≤ spec.kvLen .prefill (spec.numCl - 1) :=
      spec.kvLen_mono (Nat.le_sub_one_of_lt hv.sound.active)
        (Nat.sub_lt spec.numCl_pos Nat.one_pos)
    have hin : cell (spec.kvLen .prefill v.activeClIdx) (spec.tokenSize t) r c b <
        spec.byteCount t (spec.kvLen .prefill (spec.numCl - 1)) :=
      (cell_lt hr hlt hb).trans_le (byteCount_le hmono)
    show loadedKV spec v.kv w.kv t _ = v.produced t r c b
    rw [loadedKV, if_pos ⟨ht, hin⟩]
    exact (hv.sound.good (hfine hf).1).1 t ht r hr c hc b hb (by simp [hv.sound.pending_nil])

/-- A calm run rests at the prefill stride. -/
theorem Reachable.atPrefill {w : World τ ρ I} (h : Reachable spec env w)
    (hcalm : Calm spec w.trace) : AtPrefill spec env false w := by
  induction h with
  | init env providers kv outs hiddenIn =>
    refine ⟨⟨⟨spec.numCl_pos, fun _ hj => (nomatch hj), fun _ hx => (nomatch hx)⟩, rfl,
      fun _ hj => (nomatch hj), fun _ _ _ hx => (nomatch hx), fun _ =>
        ⟨fun t ht r hr c hc => ?_, fun _ hj => (nomatch hj)⟩⟩, Or.inl (Nat.zero_le _),
      fun _ => Nat.zero_le _⟩
    exact absurd (hc.trans_le (min_le_left _ _)) (Nat.not_lt_zero c)
  | @generate env w w' r prompt cfg callback hw hrun hr ih =>
    have hgrow := generate_grows spec env prompt cfg callback w
    rw [hrun] at hgrow
    have hstart := ih (hcalm.of_suffix hgrow)
    have hcall := generate_cache spec env prompt cfg callback
    cases r with
    | ok out => exact hcall.ok ⟨hstart, hw.counted.le⟩ hrun
    | error e =>
      rcases (hcall.error ⟨hstart, hw.counted.le⟩ hrun).2 with he | hat | ⟨habort, hat⟩
      · exact absurd (by rw [he]) hr
      · exact hat
      · obtain ⟨hpool, heq⟩ := hcalm _ habort
        exact hat hpool heq
  | @reset env w _ ih =>
    have hw := ih (hcalm.of_suffix (List.suffix_cons _ _))
    have hempty : ∀ j, j ∉ w.pending := by simp [hw.sound.pending_nil]
    have hreset : AtPrefill spec env false (resetKVCache spec w) := by
      refine ⟨⟨⟨spec.numCl_pos, fun j hj => absurd hj (hempty j), hw.sound.queued.writes⟩,
        hw.sound.clockKeeper, fun j hj => absurd hj (hempty j), hw.sound.seen, fun _ =>
          ⟨fun t ht r hr c hc => ?_, fun j hj => absurd hj (hempty j)⟩⟩, Or.inl (Nat.zero_le _),
        fun _ => Nat.zero_le _⟩
      exact absurd (hc.trans_le (min_le_left _ _)) (Nat.not_lt_zero c)
    exact hreset.log (by simp) (by simp)
  | @load _ _ w v _ hv ihw ihv =>
    rw [loaded_eq hv.counted] at hcalm
    exact (ihw (hcalm.of_suffix (List.suffix_append (_ :: v.trace) _))).load
      (ihv fun pool hm => hcalm pool (List.mem_cons_of_mem _ (List.mem_append_left _ hm))) hv.counted
  | install providers _ ih =>
    have hw := ih hcalm
    exact ⟨⟨hw.sound.queued.of_eq rfl rfl rfl, hw.sound.clockKeeper, hw.sound.pool, hw.sound.seen,
      hw.sound.good⟩, hw.fits, hw.bounded⟩
  | @idle _ w done _ _ ih =>
    obtain ⟨es, -, ht⟩ := (settle_quietly spec done w).trace
    have hsuffix : w.trace <:+ (settle spec done w).trace := ht ▸ List.suffix_append es _
    have hw := ih (hcalm.of_suffix hsuffix)
    have hsettle : settle spec done w = w := by
      unfold settle
      rw [hw.sound.pending_nil]
      exact congrArg (fun p => { w with pending := p }) hw.sound.pending_nil.symm
    rw [hsettle]
    exact hw

/-- **When the state between operations is at rest.** In a run in which an exception left a decode
loop only without a pool and with one AR for both phases: between any two operations nothing is
queued and the clock keeper is stopped; and if every chunk and decode step had room at the largest
context length, the rows are laid out at the prefill stride with their columns intact. -/
theorem resting_of_calm {w : World τ ρ I} (h : Reachable spec env w) (hcalm : Calm spec w.trace) :
    w.pending = [] ∧ w.clockKeeper = false ∧ (Fine spec w.trace → RowsAtPrefill spec w) := by
  have hw := h.atPrefill hcalm
  refine ⟨hw.sound.pending_nil, hw.sound.clockKeeper, fun hf t ht r hr c hc b hb => ?_⟩
  exact (hw.sound.good hf).1 t ht r hr c hc b hb (by simp [hw.sound.pending_nil])

/-- A call that decoded one token, at a context length of 4 with AR 2 and 1. -/
theorem resting_of_calm_tiny :
    RowsAtPrefill (tinySpec [4] 2 1) (tinyRun (tinySpec [4] 2 1) (tinyEnv 1 1) [0, 0] 1).2 :=
  (resting_of_calm (tinyRun_reachable (tinySpec [4] 2 1) (tinyEnv 1 1) [0, 0] 1 (by decide +kernel))
    (by decide +kernel)).2.2 (by decide +kernel)

/-- A call of one token at most, whose callback throws. -/
def tinyThrow : Except Err (List Int32) × World Int32 Unit Unit :=
  generate fourColumns (tinyEnv 1 1) [0, 0] (tinyCfg 1) (fun _ => .throw)
    (tinyWorld fourColumns)

/-- It leaves the clock keeper running and the rows at the decode stride. -/
theorem left_at_decode_stride :
    Reachable (tinySpec [4] 2 1) (tinyEnv 1 1) tinyThrow.2 ∧ tinyThrow.1 = .error .callbackThrew ∧
      tinyThrow.2.clockKeeper = true ∧ ¬RowsAtPrefill (tinySpec [4] 2 1) tinyThrow.2 := by
  have hthrow : tinyThrow.1 = .error .callbackThrew := by decide +kernel
  refine ⟨Reachable.generate [0, 0] (tinyCfg 1) (fun _ => .throw) (tinyWorld_reachable _ _)
    (r := tinyThrow.1) rfl (by rw [hthrow]; simp), hthrow, by decide +kernel, fun h => ?_⟩
  have hrow := h ⟨0, 0, true⟩ (by decide) 1 (by decide) 0 (by decide +kernel) 0 (by decide)
  exact absurd hrow (by decide +kernel)

/-- **When every execution sees the causal past.** After a calm run, and through any further call:
if every chunk and decode step had room at the largest context length, and no call with an empty
prompt found more history than the prefill stride holds, then the mask of every execution is zero
at exactly the causal past, and the past columns hold what was produced for their positions. -/
theorem seesPast_of_fine {w : World τ ρ I} (h : Reachable spec env w) (hcalm : Calm spec w.trace)
    (prompt : List τ) (cfg : GenerationConfig) (callback : List Int32 → CallbackAnswer)
    (hfine : Fine spec (generate spec env prompt cfg callback w).2.trace)
    (hwhole : Whole spec (generate spec env prompt cfg callback w).2.trace) :
    ∀ x, Event.exec x ∈ (generate spec env prompt cfg callback w).2.trace → SeesPast spec x :=
  have hseen : Seen spec (generate spec env prompt cfg callback w).2.trace :=
    (generate_cache spec env prompt cfg callback).snd (fun _ _ hw => hw.sound.seen) (fun _ _ hw => hw.1)
      ⟨h.atPrefill hcalm, h.counted.le⟩
  hseen hfine hwhole

/-- The executions of that call. -/
theorem seesPast_of_fine_tiny :
    (tinyRun (tinySpec [4] 2 1) (tinyEnv 1 1) [0, 0] 1).1 = .ok [1] ∧
      ∀ x, Event.exec x ∈ (tinyRun (tinySpec [4] 2 1) (tinyEnv 1 1) [0, 0] 1).2.trace →
        SeesPast (tinySpec [4] 2 1) x :=
  ⟨by decide +kernel, seesPast_of_fine (tinyWorld_reachable (tinySpec [4] 2 1) (tinyEnv 1 1))
    (by decide +kernel) [0, 0] (tinyCfg 1) (fun _ => .continue) (by decide +kernel)
    (by decide +kernel)⟩

/-- With a prompt of three tokens the decode step does not see what was produced for the third. -/
theorem blind_to_past :
    (tinyRun (tinySpec [4] 2 1) (tinyEnv 1 1) [0, 0, 0] 1).1 = .ok [1] ∧
      ∃ x, Event.exec x ∈ (tinyRun (tinySpec [4] 2 1) (tinyEnv 1 1) [0, 0, 0] 1).2.trace ∧
        ¬SeesPast (tinySpec [4] 2 1) x := by
  refine ⟨by decide +kernel, ?_⟩
  have hlast : ∃ x ∈ execs (tinyRun (tinySpec [4] 2 1) (tinyEnv 1 1) [0, 0, 0] 1).2.trace,
      (x.phase = .decode ∧ x.shard = 0 ∧ x.clIdx = 0 ∧ x.ctx.nPast = 3) ∧
        x.input.kv ⟨0, 0, true⟩ (cell 3 1 0 2 0) ≠ x.produced ⟨0, 0, true⟩ 0 2 0 := by
    decide +kernel
  obtain ⟨x, hx, ⟨hp, hs, ha, hn⟩, hne⟩ := hlast
  refine ⟨x, mem_execs.mp hx, fun h => hne ?_⟩
  have hpast := h.past ⟨0, 0, true⟩ (by decide) hs.symm 0 (by decide) 2 (by omega) 0 (by decide)
  rw [hp, ha] at hpast
  exact hpast

end Geniex
