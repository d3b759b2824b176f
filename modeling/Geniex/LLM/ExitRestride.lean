import Geniex.LLM.History

/-!
# The restride at the end of a call

A call that returns promotes the context length once more and moves the rows from the decode to the
prefill stride. `historyKept_iff` says exactly when this loses no column of the history.
-/

namespace Geniex

open FlatMem Prog

variable {τ ρ I : Type} {spec : LLMSpec} {env : Env τ ρ I}

/-- The exit restride of the state `w` keeps the history: it fits the prefill stride, and every
column of every row is the one that the row had at the decode stride. -/
def HistoryKept (spec : LLMSpec) (w : World τ ρ I) : Prop :=
  let w' := restorePrefillStride spec w
  w'.nPast ≤ spec.kvLen .prefill w'.activeClIdx ∧
    ∀ t, spec.hasTensor t = true → ∀ r < spec.rows t, ∀ c < w'.nPast, ∀ b < spec.tokenSize t,
      w'.kv t (cell (spec.kvLen .prefill w'.activeClIdx) (spec.tokenSize t) r c b) =
        w.kv t (cell (spec.kvLen .decode w.activeClIdx) (spec.tokenSize t) r c b)

/-- The exit restride as one update. -/
theorem restorePrefillStride_eq {w : World τ ρ I} (h : w.activeClIdx < spec.numCl) :
    restorePrefillStride spec w =
      { w with
        activeClIdx := promoteTarget spec w.nPast spec.seqLenPrefill w.activeClIdx
        kv := reshapeAll spec
          (spec.kvLen .decode (promoteTarget spec w.nPast spec.seqLenPrefill w.activeClIdx))
          (spec.kvLen .prefill (promoteTarget spec w.nPast spec.seqLenPrefill w.activeClIdx)) w.nPast
          (reshapeAll spec (spec.kvLen .decode w.activeClIdx)
            (spec.kvLen .decode (promoteTarget spec w.nPast spec.seqLenPrefill w.activeClIdx))
            w.nPast w.kv) } := by
  unfold restorePrefillStride
  rw [promoteCL_eq h]
  rfl

/-- A column survives the exit restride if it is valid and lies in both strides. -/
theorem restorePrefillStride_cell {w : World τ ρ I} (ha : w.activeClIdx < spec.numCl)
    {t : KVTensor} {r c b : ℕ} (ht : spec.hasTensor t = true) (hr : r < spec.rows t)
    (hb : b < spec.tokenSize t) (hc : c < w.nPast) (hd : c < spec.kvLen .decode w.activeClIdx)
    (hp : c < spec.kvLen .prefill (restorePrefillStride spec w).activeClIdx) :
    (restorePrefillStride spec w).kv t (cell
        (spec.kvLen .prefill (restorePrefillStride spec w).activeClIdx) (spec.tokenSize t) r c b) =
      w.kv t (cell (spec.kvLen .decode w.activeClIdx) (spec.tokenSize t) r c b) := by
  rw [restorePrefillStride_eq ha] at hp ⊢
  have hspec := promoteTarget_spec w.nPast spec.seqLenPrefill ha
  have hd' := hd.trans_le (spec.kvLen_mono (p := .decode) hspec.1 hspec.2.1)
  exact (reshapeAll_cell ht hr hc hd' hp hb).trans (reshapeAll_cell ht hr hc hd hd' hb)

theorem historyKept_of_le {w : World τ ρ I} (ha : w.activeClIdx < spec.numCl)
    (hfits : Fits spec .decode w) (hle : w.nPast ≤ spec.maxCl - spec.seqLenPrefill) :
    HistoryKept spec w := by
  have hspec := promoteTarget_spec w.nPast spec.seqLenPrefill ha
  have hn : (restorePrefillStride spec w).nPast = w.nPast := by rw [restorePrefillStride_eq ha]
  have ha' : (restorePrefillStride spec w).activeClIdx =
      promoteTarget spec w.nPast spec.seqLenPrefill w.activeClIdx := by
    rw [restorePrefillStride_eq ha]
  have hroom : w.nPast ≤ spec.kvLen .prefill (restorePrefillStride spec w).activeClIdx := by
    rw [ha']
    rcases hspec.2.2 with h | h
    · exact h
    · rw [spec.kvLen_last h]
      exact hle
  have hdecode : w.nPast ≤ spec.kvLen .decode w.activeClIdx := by
    rcases hfits with h | h
    · exact h
    · rw [spec.kvLen_last h]
      exact hle.trans (Nat.sub_le_sub_left spec.decode_le_prefill _)
  refine ⟨hn ▸ hroom, fun t ht r hr c hc b hb => ?_⟩
  rw [hn] at hc
  exact restorePrefillStride_cell ha ht hr hb hc (by omega) (by omega)

variable [Token τ]

/-- **When the exit restride loses no history.** For every call that returns, from any reachable
state: the exit restride keeps the history if and only if, at the exit of the decode loop, the
history fits the prefill stride of the largest context length. -/
theorem historyKept_iff {w w₁ : World τ ρ I} {out prompt : List τ} {cfg : GenerationConfig}
    {callback : List Int32 → CallbackAnswer} (h : Reachable spec env w)
    (hrun : generateBody spec env prompt cfg callback w = (.ok out, w₁)) :
    generate spec env prompt cfg callback w = (.ok out, restorePrefillStride spec w₁) ∧
      (HistoryKept spec w₁ ↔ w₁.nPast ≤ spec.maxCl - spec.seqLenPrefill) := by
  have hc := ((generateBody_follows w h.counted prompt cfg callback).ok rfl hrun).counted
  refine ⟨bind_ok hrun _, fun hkept => ?_, historyKept_of_le hc.active hc.fits⟩
  have hle := hkept.1
  rw [restorePrefillStride_eq hc.active] at hle
  exact hle.trans (spec.kvLen_le_last (promoteTarget_spec _ _ hc.active).2.1)

/-- A two-token prompt and at most `n` decoded tokens, up to the exit restride, at a context length
of 4 with AR 2 and 1. -/
def tinyBody (n : Int32) : Except Err (List Int32) × World Int32 Unit Unit :=
  generateBody fourColumns (tinyEnv 1 1) [0, 0] (tinyCfg n) (fun _ => .continue)
    (tinyWorld fourColumns)

/-- Two tokens fit: the instance of `historyKept_iff` with nothing decoded. -/
theorem historyKept_iff_tiny : HistoryKept (tinySpec [4] 2 1) (tinyBody 0).2 :=
  (historyKept_iff (tinyWorld_reachable _ (tinyEnv 1 1)) (Prod.ext (by decide +kernel) rfl :
    tinyBody 0 = (.ok [], (tinyBody 0).2))).2.mpr (by decide +kernel)

/-- Three tokens do not: the third column is lost. -/
theorem history_lost :
    Reachable (tinySpec [4] 2 1) (tinyEnv 1 1) (tinyWorld (tinySpec [4] 2 1)) ∧
      (tinyBody 1).1 = .ok [1] ∧ ¬HistoryKept (tinySpec [4] 2 1) (tinyBody 1).2 := by
  refine ⟨tinyWorld_reachable _ _, by decide +kernel, fun h => ?_⟩
  exact absurd h.1 (by decide +kernel)

end Geniex
