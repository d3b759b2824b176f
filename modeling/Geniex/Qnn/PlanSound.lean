import Geniex.Qnn.TensorPlan

/-!
# The shared-memory plan keeps live tensors apart

The proof follows the three functions. `AllocInv` says that a name is in exactly one chunk, with
room for it in every graph seen; `allocateBuffers_slots` turns chunks into disjoint slots, and
`Registered` says where in the slots the tensors of a graph lie.

* `plan_sound`: what holds of every plan.
* `split_kv`: a KV input that two graphs do not share.
-/

namespace Geniex

open Layout

/-! ## What is asked for -/

def pastStem (X : List Char) : TensorName := "past_".toList ++ X
def pastIn (X : List Char) : TensorName := pastStem X ++ "_in".toList
def pastOut (X : List Char) : TensorName := pastStem X ++ "_out".toList

/-- The graph has both `past_X_in` and `past_X_out`. -/
def Carries (g : GraphInfo) (X : List Char) : Prop := pastIn X ∈ g.io ∧ pastOut X ∈ g.io

/-- No other output of the graph that would take `past_X_in` into its slot comes after
`past_X_out` in the order of names. -/
def OutLast (io : IOMap) (X : List Char) : Prop :=
  ∀ tname ∈ io, isPast tname = true → isKVIn tname = false → stem tname = pastStem X →
    compare tname (pastOut X) ≠ .gt

def TensorAlloc.range (a : TensorAlloc) : Range := ⟨a.offset, a.size⟩

/-- Graph `i` of the plan and its allocations. -/
def TensorPlan.HasGraph (plan : TensorPlan) (graphs : List GraphInfo) (g : GraphInfo)
    (allocs : GraphAllocs) : Prop :=
  ∃ i : ℕ, graphs[i]? = some g ∧ plan.graphAllocs[i]? = some allocs

/-- In all graphs that carry both, `past_X_in` has one place, with room for each of its variants
that no tensor but these two enters. -/
def KVShared (graphs : List GraphInfo) (plan : TensorPlan) (X : List Char) : Prop :=
  ∀ g₀ ∈ graphs, Carries g₀ X → ∃ chunk base room size,
    plan.buffers.fusedBuffers[chunk]? = some size ∧ base + room ≤ size ∧
    ∀ g allocs, plan.HasGraph graphs g allocs →
      (Carries g X → ∃ n, g.io[pastIn X]? = some n ∧ n ≤ room ∧
        allocs[pastIn X]? = some ⟨chunk, base, n⟩) ∧
      ∀ (tname : TensorName) (a : TensorAlloc), tname ≠ pastIn X → tname ≠ pastOut X →
        allocs[tname]? = some a → a.allocIdx = chunk → a.range.Disjoint ⟨base, room⟩

/-- What a plan guarantees, for the KV pairs in `S`. -/
structure PlanSound (S : List Char → Prop) (graphs : List GraphInfo) (plan : TensorPlan) :
    Prop where
  /-- A planned name is in exactly one chunk. -/
  oneChunk : ∀ tname ∈ plan.buffers.tensorAllocInfo, ∃! ctxs, tname ∈ plan.alloc.chunk ctxs
  /-- Every tensor has a place of its size, save a KV input without an output. -/
  placed : ∀ g allocs, plan.HasGraph graphs g allocs →
    ∀ (tname : TensorName) (n : ℕ), g.io[tname]? = some n → (isKVIn tname = false ∨
      ∃ out ∈ g.io, isKVIn out = false ∧ isPast out = true ∧ inName out = tname) →
      ∃ a : TensorAlloc, allocs[tname]? = some a ∧ a.size = n
  inside : ∀ g allocs, plan.HasGraph graphs g allocs →
    ∀ (tname : TensorName) (a : TensorAlloc), allocs[tname]? = some a → ∃ size,
      plan.buffers.fusedBuffers[a.allocIdx]? = some size ∧ a.offset + a.size ≤ size
  disjoint : ∀ g allocs, plan.HasGraph graphs g allocs →
    ∀ (tname tname' : TensorName) (a a' : TensorAlloc), tname ≠ tname' → allocs[tname]? = some a →
      allocs[tname']? = some a' → a.allocIdx = a'.allocIdx → a.range.Disjoint a'.range
  shared : ∀ X, S X → KVShared graphs plan X

/-! ## Names -/

/-- A name with an underscore splits at its last one. -/
theorem exists_stem {tname : TensorName} (h : '_' ∈ tname) :
    ∃ s v, tname = s ++ '_' :: v ∧ '_' ∉ v := by
  obtain ⟨as, bs, heq, hnot⟩ := List.eq_append_cons_of_mem (List.mem_reverse.mpr h)
  refine ⟨bs.reverse, as.reverse, ?_, by simpa using hnot⟩
  rw [← List.reverse_reverse tname, heq]
  simp

theorem stem_append {s v : TensorName} (h : '_' ∉ v) : stem (s ++ '_' :: v) = s := by
  have hdrop : (s ++ '_' :: v).reverse.dropWhile (· != '_') = '_' :: s.reverse := by
    rw [List.reverse_append, List.reverse_cons, List.append_assoc,
      List.dropWhile_append_of_pos (by
        intro c hc
        have : c ≠ '_' := fun heq => h (heq ▸ List.mem_reverse.mp hc)
        simpa using this)]
    rfl
  unfold stem
  rw [hdrop]
  simp

@[simp] theorem inName_pastOut (X : List Char) : inName (pastOut X) = pastIn X := by
  have hstem : stem (pastOut X) = pastStem X := stem_append (v := "out".toList) (by decide)
  unfold inName pastIn
  rw [hstem]

theorem stem_of_inName {t u : TensorName} (h : inName t = inName u) : stem t = stem u :=
  List.append_cancel_right h

theorem isPast_iff {tname : TensorName} : isPast tname = true ↔ "past_".toList <+: tname :=
  List.isPrefixOf_iff_prefix

/-- The name of a KV input is skipped by the loops. -/
theorem isKVIn_inName {tname : TensorName} (h : isPast tname = true) :
    isKVIn (inName tname) = true := by
  have hpre := isPast_iff.mp h
  obtain ⟨s, v, rfl, hv⟩ := exists_stem (hpre.subset (by decide : '_' ∈ "past_".toList))
  have hin : inName (s ++ '_' :: v) = (s ++ ['_']) ++ "in".toList := by
    unfold inName
    rw [stem_append hv, List.append_assoc]
    rfl
  -- the underscore of `past_` is not after the last one
  have hlen : "past_".toList.length ≤ (s ++ ['_']).length := by
    by_contra hlt
    have hlt : s.length < 4 := by simpa using hlt
    obtain ⟨w, hw⟩ := hpre
    have hget : (s ++ '_' :: v)[4]? = some '_' := by rw [← hw]; rfl
    rw [List.getElem?_append_right hlt.le, List.getElem?_cons, if_neg (by omega)] at hget
    exact hv (List.mem_of_getElem? hget)
  have hpre' : s ++ ['_'] <+: s ++ '_' :: v := ⟨v, by simp⟩
  have hpast := List.prefix_of_prefix_length_le hpre hpre' hlen
  unfold isKVIn
  rw [hin, Bool.and_eq_true, isPast_iff, List.isSuffixOf_iff_suffix]
  exact ⟨hpast.trans (List.prefix_append _ _), ⟨s, by simp⟩⟩

theorem isPast_pastOut (X : List Char) : isPast (pastOut X) = true := by
  apply isPast_iff.mpr
  exact ⟨X ++ "_out".toList, (List.append_assoc _ _ _).symm⟩

theorem isKVIn_pastOut (X : List Char) : isKVIn (pastOut X) = false := by
  unfold isKVIn
  rw [Bool.and_eq_false_iff]
  right
  rw [Bool.eq_false_iff, ne_eq, List.isSuffixOf_iff_suffix]
  rintro ⟨w, hw⟩
  have hlast := congrArg List.getLast? hw
  simp [pastOut] at hlast

/-! ## Accumulation -/

/-- The set of contexts of one context: any other set contains it or is disjoint from it. -/
def IsBit (h : CtxBitVector) : Prop := ∀ x : CtxBitVector, x &&& h = 0 ∨ h ||| x = x

theorem isBit_shift (n : Int32) : IsBit (1 <<< n) := by
  intro x
  obtain ⟨i, hi⟩ : ∃ i, ((1 : Int32) <<< n).toBitVec = BitVec.twoPow 32 i :=
    ⟨_, (BitVec.twoPow_eq 32 _).symm⟩
  rw [← Int32.toBitVec_inj, ← Int32.toBitVec_inj, Int32.toBitVec_and, Int32.toBitVec_or, hi,
    BitVec.and_twoPow]
  by_cases hbit : x.toBitVec.getLsbD i = true
  · right
    ext j hj
    rw [BitVec.getElem_or, BitVec.getElem_twoPow]
    by_cases hij : j = i
    · subst hij
      rw [BitVec.getLsbD_eq_getElem hj] at hbit
      simp [hbit]
    · simp [hij]
  · left
    rw [if_neg hbit]
    rfl

namespace AllocState

variable {st : AllocState}

/-- The size planned for a name. -/
def slot (st : AllocState) (tname : TensorName) : Option ℕ :=
  match st.tensorCtxMap[tname]? with
  | none => none
  | some ctxs => (st.chunk ctxs)[tname]?

theorem getElem?_insert_eq {κ ν : Type} [Ord κ] [Std.TransOrd κ] [Std.LawfulEqOrd κ]
    [DecidableEq κ] (m : Std.TreeMap κ ν) (k k' : κ) (v : ν) :
    (m.insert k v)[k']? = if k = k' then some v else m[k']? := by
  rw [Std.TreeMap.getElem?_insert]
  simp only [Std.LawfulEqOrd.compare_eq_iff_eq]

theorem chunk_setChunk (ctxs ctxs' : CtxBitVector) (chunk : IOMap) :
    (st.setChunk ctxs chunk).chunk ctxs' = if ctxs = ctxs' then chunk else st.chunk ctxs' := by
  unfold AllocState.chunk setChunk
  rw [Std.TreeMap.getD_insert]
  simp only [Std.LawfulEqOrd.compare_eq_iff_eq]

/-- What holds between the tensors: a name is in the chunk that `tensor_ctx_map` gives, and in no
other. -/
structure Inv (st : AllocState) : Prop where
  bits : ∀ (c : ℕ) (h : CtxBitVector), st.ctxToHash[c]? = some h → IsBit h
  owner : ∀ (ctxs : CtxBitVector) (tname : TensorName) (n : ℕ),
    (st.chunk ctxs)[tname]? = some n → st.tensorCtxMap[tname]? = some ctxs
  kept : ∀ (tname : TensorName) (ctxs : CtxBitVector), st.tensorCtxMap[tname]? = some ctxs →
    ∃ n, (st.chunk ctxs)[tname]? = some n

theorem Inv.slot_eq (h : st.Inv) {tname : TensorName} {ctxs : CtxBitVector} {n : ℕ}
    (hn : (st.chunk ctxs)[tname]? = some n) : st.slot tname = some n := by
  unfold slot
  rw [h.owner ctxs tname n hn]
  exact hn

/-- A state with the same chunks and maps. -/
theorem Inv.of_chunk (h : st.Inv) (st' : AllocState)
    (hchunk : ∀ ctxs (tname : TensorName), (st'.chunk ctxs)[tname]? = (st.chunk ctxs)[tname]?)
    (hmap : st'.tensorCtxMap = st.tensorCtxMap)
    (hbits : ∀ (c : ℕ) (h : CtxBitVector), st'.ctxToHash[c]? = some h → IsBit h) :
    st'.Inv ∧ ∀ tname, st'.slot tname = st.slot tname := by
  refine ⟨⟨hbits, fun ctxs tname n hn => ?_, fun tname ctxs hc => ?_⟩, fun tname => ?_⟩
  · rw [hmap]
    exact h.owner ctxs tname n (hchunk ctxs tname ▸ hn)
  · rw [hmap] at hc
    obtain ⟨n, hn⟩ := h.kept tname ctxs hc
    exact ⟨n, (hchunk ctxs tname).trans hn⟩
  · unfold slot
    rw [hmap]
    cases st.tensorCtxMap[tname]? with
    | none => rfl
    | some ctxs => exact hchunk ctxs tname

/-- `put` at a chunk, for a name that is in no other: the name is where it was put, and the other
names are where they were. -/
theorem Inv.put (h : st.Inv) (st₀ : AllocState) (ctxs : CtxBitVector) (tname : TensorName)
    (size : ℕ) (hmap : st₀.tensorCtxMap = st.tensorCtxMap) (hhash : st₀.ctxToHash = st.ctxToHash)
    (hother : ∀ ctxs' (u : TensorName), u ≠ tname →
      (st₀.chunk ctxs')[u]? = (st.chunk ctxs')[u]?)
    (hnone : ∀ ctxs', ctxs' ≠ ctxs → (st₀.chunk ctxs')[tname]? = none) :
    (st₀.put ctxs tname size).Inv ∧ (st₀.put ctxs tname size).slot tname = some size ∧
      ∀ u, u ≠ tname → (st₀.put ctxs tname size).slot u = st.slot u := by
  have hchunk : ∀ ctxs' (u : TensorName), ((st₀.put ctxs tname size).chunk ctxs')[u]? =
      if u = tname then (if ctxs' = ctxs then some size else none) else (st.chunk ctxs')[u]? := by
    intro ctxs' u
    have hset : (st₀.put ctxs tname size).chunk ctxs' =
        (st₀.setChunk ctxs ((st₀.chunk ctxs).insert tname size)).chunk ctxs' := rfl
    rw [hset, chunk_setChunk]
    by_cases hu : u = tname
    · subst hu
      by_cases hc : ctxs' = ctxs
      · simp [hc]
      · rw [if_neg (Ne.symm hc), if_pos rfl, if_neg hc, hnone _ hc]
    · rw [if_neg hu, ← hother ctxs' u hu]
      split_ifs with hc
      · rw [getElem?_insert_eq, if_neg (Ne.symm hu), hc]
      · rfl
  have hctx : ∀ u : TensorName, (st₀.put ctxs tname size).tensorCtxMap[u]? =
      if u = tname then some ctxs else st.tensorCtxMap[u]? := by
    intro u
    show (st₀.tensorCtxMap.insert tname ctxs)[u]? = _
    rw [getElem?_insert_eq, hmap]
    simp only [eq_comm]
  have hinv : (st₀.put ctxs tname size).Inv := by
    refine ⟨fun c b hb => h.bits c b (hhash ▸ hb), fun ctxs' u n hn => ?_, fun u ctxs' hu => ?_⟩
    · rw [hchunk] at hn
      rw [hctx]
      split_ifs at hn ⊢ with hut hc
      · rw [hc]
      · exact h.owner ctxs' u n hn
    · rw [hctx] at hu
      rw [hchunk]
      split_ifs at hu ⊢ with hut hc
      · exact ⟨size, rfl⟩
      · exact absurd (Option.some.inj hu).symm hc
      · exact h.kept u ctxs' hu
  refine ⟨hinv, ?_, fun u hu => ?_⟩
  · unfold slot
    rw [hctx, if_pos rfl]
    show ((st₀.put ctxs tname size).chunk ctxs)[tname]? = some size
    rw [hchunk, if_pos rfl, if_pos rfl]
  · unfold slot
    rw [hctx, if_neg hu]
    cases st.tensorCtxMap[u]? with
    | none => rfl
    | some ctxs' =>
      show ((st₀.put ctxs tname size).chunk ctxs')[u]? = (st.chunk ctxs')[u]?
      rw [hchunk, if_neg hu]

/-- An entry of the map is a chunk. -/
theorem chunk_of_mem {p : CtxBitVector × IOMap} (hp : p ∈ st.contextAllocMap.toList) :
    st.chunk p.1 = p.2 := by
  unfold AllocState.chunk
  rw [Std.TreeMap.getD_eq_getD_getElem?,
    Std.TreeMap.mem_toList_iff_getElem?_eq_some.mp (show (p.1, p.2) ∈ _ from hp)]
  rfl

/-- No tensor is in two chunks. -/
theorem Inv.chunks_apart (h : st.Inv) : st.contextAllocMap.toList.Pairwise
    fun p q => ∀ tname ∈ p.2, tname ∉ q.2 := by
  apply List.Pairwise.imp_of_mem _ Std.TreeMap.distinct_keys_toList
  intro p q hp hq hne tname hmem hmem'
  obtain ⟨n, hn⟩ := Option.isSome_iff_exists.mp (Std.TreeMap.mem_iff_isSome_getElem?.mp hmem)
  obtain ⟨n', hn'⟩ := Option.isSome_iff_exists.mp (Std.TreeMap.mem_iff_isSome_getElem?.mp hmem')
  rw [← chunk_of_mem hp] at hn
  rw [← chunk_of_mem hq] at hn'
  have heq := (h.owner _ _ _ hn).symm.trans (h.owner _ _ _ hn')
  exact hne (Option.some.inj heq ▸ Std.ReflOrd.compare_self)

/-- A slot is an entry of a chunk. -/
theorem chunk_of_slot {tname : TensorName} {n : ℕ} (hn : st.slot tname = some n) :
    ∃ m ∈ st.contextAllocMap.toList.map Prod.snd, m[tname]? = some n := by
  unfold AllocState.slot at hn
  cases hctx : st.tensorCtxMap[tname]? with
  | none => rw [hctx] at hn; cases hn
  | some ctxs =>
    rw [hctx] at hn
    have hn : (st.chunk ctxs)[tname]? = some n := hn
    cases hm : st.contextAllocMap[ctxs]? with
    | none =>
      unfold AllocState.chunk at hn
      rw [Std.TreeMap.getD_eq_getD_getElem?, hm] at hn
      simp at hn
    | some m =>
      have hmem := Std.TreeMap.mem_toList_iff_getElem?_eq_some.mpr hm
      refine ⟨m, List.mem_map_of_mem hmem, ?_⟩
      have hc : st.chunk ctxs = m := chunk_of_mem hmem
      rw [← hc]
      exact hn
end AllocState

/-- Slots only grow. -/
def SlotsGrow (st st' : AllocState) : Prop :=
  ∀ tname n, st.slot tname = some n → ∃ n', st'.slot tname = some n' ∧ n ≤ n'

theorem SlotsGrow.trans {st st' st'' : AllocState} (h : SlotsGrow st st')
    (h' : SlotsGrow st' st'') : SlotsGrow st st'' := by
  intro tname n hn
  obtain ⟨n', hn', hle⟩ := h tname n hn
  obtain ⟨n'', hn'', hle'⟩ := h' tname n' hn'
  exact ⟨n'', hn'', hle.trans hle'⟩

/-- A slot holds a tensor of a graph, with the KV input that goes with it. -/
def HasRoom (st : AllocState) (io : IOMap) (t : TensorName × ℕ) : Prop :=
  isKVIn t.1 = false → ∃ n, st.slot t.1 = some n ∧ t.2 + (kvInSize io t.1).getD 0 ≤ n

theorem HasRoom.grow {st st' : AllocState} {io : IOMap} {t : TensorName × ℕ}
    (h : HasRoom st io t) (hgrow : SlotsGrow st st') : HasRoom st' io t := by
  intro ht
  obtain ⟨n, hn, hle⟩ := h ht
  obtain ⟨n', hn', hle'⟩ := hgrow _ _ hn
  exact ⟨n', hn', hle.trans hle'⟩

/-- A slot put at least as large as it was, and with room for a tensor. -/
theorem grow_of_put {st st' : AllocState} {io : IOMap} {t : TensorName × ℕ} {size : ℕ}
    (hslot : st'.slot t.1 = some size) (hold : ∀ n, st.slot t.1 = some n → n ≤ size)
    (hother : ∀ u, u ≠ t.1 → st'.slot u = st.slot u)
    (hsize : t.2 + (kvInSize io t.1).getD 0 ≤ size) : SlotsGrow st st' ∧ HasRoom st' io t := by
  refine ⟨fun u n hu => ?_, fun _ => ⟨size, hslot, hsize⟩⟩
  by_cases hut : u = t.1
  · subst hut
    exact ⟨size, hslot, hold n hu⟩
  · exact ⟨n, (hother u hut).trans hu, le_rfl⟩

/-- One tensor of a graph. -/
theorem accumulateTensor_inv (io : IOMap) {tcontext : CtxBitVector} {st : AllocState}
    (h : st.Inv) (hbit : IsBit tcontext) (t : TensorName × ℕ) :
    (accumulateTensor io tcontext st t).Inv ∧ SlotsGrow st (accumulateTensor io tcontext st t) ∧
      HasRoom (accumulateTensor io tcontext st t) io t := by
  obtain ⟨hnote, hslots⟩ := h.of_chunk (st.note t.1) (fun _ _ => rfl) rfl h.bits
  have hgrow : SlotsGrow st (st.note t.1) := fun u n hu => ⟨n, (hslots u).trans hu, le_rfl⟩
  unfold accumulateTensor
  by_cases hkv : isKVIn t.1 = true
  · rw [if_pos hkv]
    exact ⟨hnote, hgrow, fun hno => absurd hkv (hno ▸ Bool.false_ne_true)⟩
  · rw [if_neg hkv]
    cases hctx : (st.note t.1).tensorCtxMap[t.1]? with
    | none =>
      have hnone : ∀ ctxs, ((st.note t.1).chunk ctxs)[t.1]? = none := by
        intro ctxs
        cases hn : ((st.note t.1).chunk ctxs)[t.1]? with
        | none => rfl
        | some n =>
          have := hnote.owner ctxs t.1 n hn
          rw [hctx] at this
          cases this
      obtain ⟨hinv, hslot, hother⟩ := hnote.put (st.note t.1) tcontext t.1
        (t.2 + (kvInSize io t.1).getD 0) rfl rfl (fun _ _ _ => rfl) fun ctxs _ => hnone ctxs
      have hold : ∀ n, (st.note t.1).slot t.1 = some n → n ≤ t.2 + (kvInSize io t.1).getD 0 := by
        intro n hn
        unfold AllocState.slot at hn
        rw [hctx] at hn
        cases hn
      obtain ⟨hg, hr⟩ := grow_of_put hslot hold hother le_rfl
      exact ⟨hinv, hgrow.trans hg, hr⟩
    | some ctxs =>
      obtain ⟨n, hn⟩ := hnote.kept t.1 ctxs hctx
      have hget : ((st.note t.1).chunk ctxs).getD t.1 0 = n := by
        rw [Std.TreeMap.getD_eq_getD_getElem?, hn]
        rfl
      have honly : ∀ ctxs', ctxs' ≠ ctxs → ((st.note t.1).chunk ctxs')[t.1]? = none := by
        intro ctxs' hne
        cases hn' : ((st.note t.1).chunk ctxs')[t.1]? with
        | none => rfl
        | some n' =>
          have heq := hnote.owner ctxs' t.1 n' hn'
          rw [hctx] at heq
          exact absurd (Option.some.inj heq).symm hne
      have hold : ∀ m, (st.note t.1).slot t.1 = some m →
          m ≤ max n (t.2 + (kvInSize io t.1).getD 0) := by
        intro m hm
        rw [hnote.slot_eq hn] at hm
        exact Option.some.inj hm ▸ le_max_left _ _
      simp only [hget]
      by_cases hand : ctxs &&& tcontext = 0
      · -- the name moves to a larger set of contexts
        rw [if_pos hand]
        have hchunk : ∀ ctxs' (u : TensorName), (((st.note t.1).setChunk ctxs
            (((st.note t.1).chunk ctxs).erase t.1)).chunk ctxs')[u]? =
              if u = t.1 then none else ((st.note t.1).chunk ctxs')[u]? := by
          intro ctxs' u
          rw [AllocState.chunk_setChunk]
          by_cases hc : ctxs = ctxs'
          · subst hc
            rw [if_pos rfl, Std.TreeMap.getElem?_erase]
            simp only [Std.LawfulEqOrd.compare_eq_iff_eq]
            exact if_congr eq_comm rfl rfl
          · rw [if_neg hc]
            by_cases hu : u = t.1
            · rw [if_pos hu, hu, honly ctxs' (Ne.symm hc)]
            · rw [if_neg hu]
        obtain ⟨hinv, hslot, hother⟩ := hnote.put ((st.note t.1).setChunk ctxs
          (((st.note t.1).chunk ctxs).erase t.1)) (tcontext ||| ctxs) t.1
          (max n (t.2 + (kvInSize io t.1).getD 0)) rfl rfl
          (fun ctxs' u hu => (hchunk ctxs' u).trans (if_neg hu))
          fun ctxs' _ => (hchunk ctxs' t.1).trans (if_pos rfl)
        obtain ⟨hg, hr⟩ := grow_of_put hslot hold hother (le_max_right _ _)
        exact ⟨hinv, hgrow.trans hg, hr⟩
      · -- the set of contexts has this one already
        rw [if_neg hand, (hbit ctxs).resolve_left hand]
        obtain ⟨hinv, hslot, hother⟩ := hnote.put (st.note t.1) ctxs t.1
          (max n (t.2 + (kvInSize io t.1).getD 0)) rfl rfl (fun _ _ _ => rfl) honly
        obtain ⟨hg, hr⟩ := grow_of_put hslot hold hother (le_max_right _ _)
        exact ⟨hinv, hgrow.trans hg, hr⟩

/-- The tensors of a graph. -/
theorem accumulateTensors_inv (io : IOMap) {tcontext : CtxBitVector} (hbit : IsBit tcontext)
    (l : List (TensorName × ℕ)) : ∀ {st : AllocState}, st.Inv →
      (l.foldl (accumulateTensor io tcontext) st).Inv ∧
        SlotsGrow st (l.foldl (accumulateTensor io tcontext) st) ∧
        ∀ t ∈ l, HasRoom (l.foldl (accumulateTensor io tcontext) st) io t := by
  induction l with
  | nil => exact fun h => ⟨h, fun u n hu => ⟨n, hu, le_rfl⟩, fun _ ht => nomatch ht⟩
  | cons t l ih =>
    intro st h
    obtain ⟨hinv, hgrow, hroom⟩ := accumulateTensor_inv io h hbit t
    obtain ⟨hinv', hgrow', hroom'⟩ := ih hinv
    refine ⟨hinv', hgrow.trans hgrow', fun u hu => ?_⟩
    rcases List.mem_cons.mp hu with rfl | hu
    · exact hroom.grow hgrow'
    · exact hroom' u hu

/-- Dropping empty chunks drops no name. -/
theorem getElem?_dropEmpty (m : Std.TreeMap CtxBitVector IOMap) (ctxs : CtxBitVector)
    (tname : TensorName) : ((m.filter fun _ chunk => !chunk.isEmpty).getD ctxs ∅)[tname]? =
      (m.getD ctxs ∅)[tname]? := by
  rw [Std.TreeMap.getD_filter', Std.TreeMap.getD_eq_getD_getElem?]
  cases m[ctxs]? with
  | none => rfl
  | some chunk =>
    by_cases hempty : chunk.isEmpty = true
    · have hnone : chunk[tname]? = none := Std.TreeMap.getElem?_of_isEmpty hempty
      simp [Option.filter, hempty, hnone]
    · simp [Option.filter, hempty]

/-- A graph. -/
theorem accumulateGraph_inv {st : AllocState} (h : st.Inv) (g : GraphInfo) :
    (accumulateGraph st g).Inv ∧ SlotsGrow st (accumulateGraph st g) ∧
      ∀ t ∈ g.io.toList, HasRoom (accumulateGraph st g) g.io t := by
  have hbit : IsBit (contextBit st g.contextIdx) := by
    unfold contextBit
    rw [Std.TreeMap.getD_eq_getD_getElem?]
    cases hc : st.ctxToHash[g.contextIdx]? with
    | none => exact isBit_shift _
    | some b => exact h.bits _ b hc
  -- the bit of the context is recorded
  obtain ⟨hrec, hslots⟩ := h.of_chunk
    { st with ctxToHash := st.ctxToHash.insert g.contextIdx (contextBit st g.contextIdx) }
    (fun _ _ => rfl) rfl fun c b hb => by
      rw [AllocState.getElem?_insert_eq] at hb
      split_ifs at hb with hc
      · exact Option.some.inj hb ▸ hbit
      · exact h.bits c b hb
  obtain ⟨hinv, hgrow, hroom⟩ := accumulateTensors_inv g.io hbit g.io.toList hrec
  -- empty chunks are dropped
  obtain ⟨hinv', hslots'⟩ := hinv.of_chunk (accumulateGraph st g)
    (fun ctxs tname => getElem?_dropEmpty _ ctxs tname) rfl hinv.bits
  have hgrow' : SlotsGrow st (accumulateGraph st g) := by
    intro u n hu
    obtain ⟨n', hn', hle⟩ := hgrow u n ((hslots u).trans hu)
    exact ⟨n', (hslots' u).trans hn', hle⟩
  refine ⟨hinv', hgrow', fun t ht hkv => ?_⟩
  obtain ⟨n, hn, hle⟩ := hroom t ht hkv
  exact ⟨n, (hslots' t.1).trans hn, hle⟩

/-- All graphs. -/
theorem accumulateGraphs_inv (graphs : List GraphInfo) : ∀ {st : AllocState}, st.Inv →
    (graphs.foldl accumulateGraph st).Inv ∧ SlotsGrow st (graphs.foldl accumulateGraph st) ∧
      ∀ g ∈ graphs, ∀ t ∈ g.io.toList, HasRoom (graphs.foldl accumulateGraph st) g.io t := by
  induction graphs with
  | nil => exact fun h => ⟨h, fun u n hu => ⟨n, hu, le_rfl⟩, fun _ hg => nomatch hg⟩
  | cons g graphs ih =>
    intro st h
    obtain ⟨hinv, hgrow, hroom⟩ := accumulateGraph_inv h g
    obtain ⟨hinv', hgrow', hroom'⟩ := ih hinv
    refine ⟨hinv', hgrow.trans hgrow', fun g' hg' t ht => ?_⟩
    rcases List.mem_cons.mp hg' with rfl | hg'
    · exact (hroom t ht).grow hgrow'
    · exact hroom' g' hg' t ht

theorem inv_nil : AllocState.Inv {} := by
  have hchunk : ∀ (ctxs : CtxBitVector) (tname : TensorName),
      ((({} : AllocState).chunk ctxs)[tname]? : Option ℕ) = none := by
    intro ctxs tname
    unfold AllocState.chunk
    simp
  refine ⟨fun c h hc => ?_, fun ctxs tname n hn => ?_, fun tname ctxs hc => ?_⟩
  · simp at hc
  · rw [hchunk] at hn
    cases hn
  · simp at hc

/-! ## Allocation -/

/-- The loop over a chunk's tensors lays their slots one after the other. -/
theorem placeTensors_eq (chunkIdx : ℕ) (l : List (TensorName × ℕ)) :
    ∀ (info : Std.TreeMap TensorName (ℕ × ℕ)) (start : ℕ),
      l.foldl (placeTensor chunkIdx) (info, start) =
        (info.insertMany ((place start l).map fun p => (p.1, (chunkIdx, p.2.base))),
          start + total l) := by
  induction l with
  | nil => exact fun info start => rfl
  | cons t l ih =>
    intro info start
    show l.foldl (placeTensor chunkIdx) (info.insert t.1 (chunkIdx, start), start + t.2) = _
    rw [ih, place, List.map_cons, Std.TreeMap.insertMany_cons, total_cons, Nat.add_assoc]

/-- A name has a slot of the given size: a range in a chunk that is allocated. -/
def SlotAt (st : Buffers) (tname : TensorName) (chunk : ℕ) (r : Range) : Prop :=
  st.tensorAllocInfo[tname]? = some (chunk, r.base) ∧
    ∃ size, st.fusedBuffers[chunk]? = some size ∧ r.Within ⟨0, size⟩

/-- The entries of the chunks have disjoint slots, in chunks from the given index on. -/
structure Slots (first : ℕ) (chunks : List IOMap) (st : Buffers) : Prop where
  slot : ∀ m ∈ chunks, ∀ (tname : TensorName) (n : ℕ), m[tname]? = some n →
    ∃ chunk base, first ≤ chunk ∧ SlotAt st tname chunk ⟨base, n⟩
  apart : ∀ m ∈ chunks, ∀ m' ∈ chunks, ∀ (tname tname' : TensorName) (n n' chunk base base' : ℕ),
    tname ≠ tname' → m[tname]? = some n → m'[tname']? = some n' →
    st.tensorAllocInfo[tname]? = some (chunk, base) →
    st.tensorAllocInfo[tname']? = some (chunk, base') → Range.Disjoint ⟨base, n⟩ ⟨base', n'⟩

/-- One chunk. -/
theorem allocateChunk_slots {rpcAlloc : ℕ → ℕ → Bool} {st st' : Buffers} {m : IOMap}
    (h : allocateChunk rpcAlloc st m = some st') :
    (∃ size, st'.fusedBuffers = st.fusedBuffers ++ [size]) ∧
    (∀ tname : TensorName, tname ∉ m → st'.tensorAllocInfo[tname]? = st.tensorAllocInfo[tname]?) ∧
    (∀ tname ∈ m, ∃ base, st'.tensorAllocInfo[tname]? = some (st.fusedBuffers.length, base)) ∧
    Slots st.fusedBuffers.length [m] st' := by
  unfold allocateChunk at h
  simp only [placeTensors_eq, Nat.zero_add] at h
  split_ifs at h
  obtain rfl := Option.some.inj h
  have hkeys : ((place 0 m.toList).map Prod.fst).Pairwise fun a b => ¬compare a b = .eq := by
    rw [place_keys, List.pairwise_map]
    exact m.distinct_keys_toList
  -- every placed entry is found again
  have hget : ∀ (tname : TensorName) (r : Range), (tname, r) ∈ place 0 m.toList →
      (st.tensorAllocInfo.insertMany ((place 0 m.toList).map fun p =>
        (p.1, (st.fusedBuffers.length, p.2.base))))[tname]? =
          some (st.fusedBuffers.length, r.base) := by
    intro tname r hr
    apply Std.TreeMap.getElem?_insertMany_list_of_mem Std.ReflOrd.compare_self
    · rw [List.pairwise_map]
      exact List.pairwise_map.mp hkeys
    · exact List.mem_map.mpr ⟨_, hr, rfl⟩
  have hslot : ∀ (tname : TensorName) (n : ℕ), m[tname]? = some n →
      ∃ base, (tname, (⟨base, n⟩ : Range)) ∈ place 0 m.toList := fun tname n hn =>
    mem_place (Std.TreeMap.mem_toList_iff_getElem?_eq_some.mpr hn) 0
  refine ⟨⟨_, rfl⟩, fun tname hnot => ?_, fun tname hmem => ?_, fun m' hm' tname n hn => ?_, ?_⟩
  · apply Std.TreeMap.getElem?_insertMany_list_of_contains_eq_false
    rw [List.map_map, show (Prod.fst ∘ fun p : TensorName × Range =>
      (p.1, (st.fusedBuffers.length, p.2.base))) = Prod.fst from rfl, place_keys,
      Std.TreeMap.map_fst_toList_eq_keys, Std.TreeMap.contains_keys, ← Bool.not_eq_true,
      Std.TreeMap.contains_iff_mem]
    exact hnot
  · obtain ⟨n, hn⟩ := Option.isSome_iff_exists.mp (Std.TreeMap.mem_iff_isSome_getElem?.mp hmem)
    obtain ⟨base, hr⟩ := hslot tname n hn
    exact ⟨base, hget tname _ hr⟩
  · obtain rfl := List.mem_singleton.mp hm'
    obtain ⟨base, hr⟩ := hslot tname n hn
    exact ⟨_, base, le_rfl, hget tname _ hr, _, by simp, place_within hr⟩
  · intro m₁ h₁ m₂ h₂ tname tname' n n' chunk base base' hne hn hn' hb hb'
    obtain rfl := List.mem_singleton.mp h₁
    obtain rfl := List.mem_singleton.mp h₂
    obtain ⟨b, hr⟩ := hslot tname n hn
    obtain ⟨b', hr'⟩ := hslot tname' n' hn'
    have heq := (hget tname _ hr).symm.trans hb
    have heq' := (hget tname' _ hr').symm.trans hb'
    obtain ⟨-, rfl⟩ := Prod.mk.inj (Option.some.inj heq)
    obtain ⟨-, rfl⟩ := Prod.mk.inj (Option.some.inj heq')
    have hsymm : Std.Symm fun p q : TensorName × Range => p.2.Disjoint q.2 := ⟨fun _ _ h => h.symm⟩
    exact (place_disjoint m₂.toList 0).forall hr hr' fun h => hne (Prod.mk.inj h).1

/-- The chunks, which share no name. -/
theorem allocateChunks_slots {rpcAlloc : ℕ → ℕ → Bool} (chunks : List (CtxBitVector × IOMap)) :
    ∀ {st st' : Buffers},
      chunks.foldlM (fun st chunk => allocateChunk rpcAlloc st chunk.2) st = some st' →
      chunks.Pairwise (fun p q => ∀ tname ∈ p.2, tname ∉ q.2) →
      (∀ i < st.fusedBuffers.length, st'.fusedBuffers[i]? = st.fusedBuffers[i]?) ∧
      (∀ tname : TensorName, (∀ p ∈ chunks, tname ∉ p.2) →
        st'.tensorAllocInfo[tname]? = st.tensorAllocInfo[tname]?) ∧
      Slots st.fusedBuffers.length (chunks.map Prod.snd) st' := by
  induction chunks with
  | nil =>
    intro st st' h _
    obtain rfl := Option.some.inj h
    exact ⟨fun _ _ => rfl, fun _ _ => rfl, fun _ hm => (nomatch hm), fun _ hm => nomatch hm⟩
  | cons p chunks ih =>
    intro st st' h hpair
    rw [List.foldlM_cons] at h
    obtain ⟨st₁, h₁, h⟩ := Option.bind_eq_some_iff.mp h
    obtain ⟨hnot, hpair⟩ := List.pairwise_cons.mp hpair
    obtain ⟨⟨size, hfused⟩, hkeep, hhead, hslots⟩ := allocateChunk_slots h₁
    obtain ⟨hfused', hkeep', hslots'⟩ := ih h hpair
    have hlen : st₁.fusedBuffers.length = st.fusedBuffers.length + 1 := by simp [hfused]
    rw [hlen] at hfused' hslots'
    -- the names of the first chunk stay where they are
    have hstay : ∀ tname ∈ p.2, st'.tensorAllocInfo[tname]? = st₁.tensorAllocInfo[tname]? :=
      fun tname hmem => hkeep' tname fun q hq => hnot q hq tname hmem
    have hmem : ∀ {m : IOMap} {tname : TensorName} {n : ℕ}, m[tname]? = some n → tname ∈ m :=
      fun hn => Std.TreeMap.mem_iff_isSome_getElem?.mpr (by rw [hn]; rfl)
    -- the first chunk's names are in it, the others' are not
    have hfirst : ∀ (tname : TensorName) (n chunk base : ℕ), p.2[tname]? = some n →
        st'.tensorAllocInfo[tname]? = some (chunk, base) → chunk = st.fusedBuffers.length := by
      intro tname n chunk base hn hb
      obtain ⟨b, hb'⟩ := hhead tname (hmem hn)
      rw [hstay tname (hmem hn), hb'] at hb
      exact (Prod.mk.inj (Option.some.inj hb)).1.symm
    have hlater : ∀ m ∈ chunks.map Prod.snd, ∀ (tname : TensorName) (n chunk base : ℕ),
        m[tname]? = some n → st'.tensorAllocInfo[tname]? = some (chunk, base) →
          st.fusedBuffers.length < chunk := by
      intro m hm tname n chunk base hn hb
      obtain ⟨c, b, hle, hinfo, -⟩ := hslots'.slot m hm tname n hn
      obtain ⟨rfl, -⟩ := Prod.mk.inj (Option.some.inj (hinfo.symm.trans hb))
      exact hle
    refine ⟨fun i hi => ?_, fun tname hno => ?_, fun m hm tname n hn => ?_, ?_⟩
    · rw [hfused' i (by omega), hfused, List.getElem?_append_left hi]
    · rw [hkeep' tname fun q hq => hno q (List.mem_cons_of_mem _ hq),
        hkeep tname (hno p List.mem_cons_self)]
    · rcases List.mem_cons.mp hm with rfl | hm
      · obtain ⟨chunk, base, hle, hinfo, total, htotal, hin⟩ :=
          hslots.slot p.2 (List.mem_singleton_self _) tname n hn
        have hlt := (List.getElem?_eq_some_iff.mp htotal).1
        exact ⟨chunk, base, hle, (hstay tname (hmem hn)).trans hinfo, total,
          (hfused' chunk (by omega)).trans htotal, hin⟩
      · obtain ⟨chunk, base, hle, hat⟩ := hslots'.slot m hm tname n hn
        exact ⟨chunk, base, by omega, hat⟩
    · intro m₁ hm₁ m₂ hm₂ tname tname' n n' chunk base base' hne hn hn' hb hb'
      rcases List.mem_cons.mp hm₁ with rfl | hm₁ <;> rcases List.mem_cons.mp hm₂ with rfl | hm₂
      · rw [hstay tname (hmem hn)] at hb
        rw [hstay tname' (hmem hn')] at hb'
        exact hslots.apart p.2 (List.mem_singleton_self _) p.2 (List.mem_singleton_self _) tname
          tname' n n' chunk base base' hne hn hn' hb hb'
      · have := hfirst tname n chunk base hn hb
        have := hlater m₂ hm₂ tname' n' chunk base' hn' hb'
        omega
      · have := hlater m₁ hm₁ tname n chunk base hn hb
        have := hfirst tname' n' chunk base' hn' hb'
        omega
      · exact hslots'.apart m₁ hm₁ m₂ hm₂ tname tname' n n' chunk base base' hne hn hn' hb hb'

/-! ## Registration -/

/-- Where the tensors of a graph that the loop has seen are. -/
structure Registered (info : Std.TreeMap TensorName (ℕ × ℕ)) (io : IOMap)
    (seen : List (TensorName × ℕ)) (allocs : GraphAllocs) : Prop where
  /-- Every tensor lies in the slot of an output: as itself, after the KV input, or as the KV
  input. -/
  source : ∀ (tname : TensorName) (a : TensorAlloc), allocs[tname]? = some a →
    ∃ t ∈ seen, isKVIn t.1 = false ∧ ∃ chunk base, info[t.1]? = some (chunk, base) ∧
      (tname = t.1 ∧ a = ⟨chunk, base + (kvInSize io t.1).getD 0, t.2⟩ ∨
        tname = inName t.1 ∧ ∃ n, kvInSize io t.1 = some n ∧ a = ⟨chunk, base, n⟩)
  out : ∀ t ∈ seen, isKVIn t.1 = false → ∃ chunk base, info[t.1]? = some (chunk, base) ∧
    allocs[t.1]? = some ⟨chunk, base + (kvInSize io t.1).getD 0, t.2⟩
  kvIn : ∀ t ∈ seen, isKVIn t.1 = false → ∀ n, kvInSize io t.1 = some n →
    ∃ a : TensorAlloc, allocs[inName t.1]? = some a ∧ a.size = n
  /-- A KV input lies in the slot of the last output that takes it. -/
  last : ∀ before t after, seen = before ++ t :: after → isKVIn t.1 = false →
    (∀ u ∈ after, isKVIn u.1 = true ∨ kvInSize io u.1 = none ∨ inName u.1 ≠ inName t.1) →
    ∀ n, kvInSize io t.1 = some n → ∃ chunk base, info[t.1]? = some (chunk, base) ∧
      allocs[inName t.1]? = some ⟨chunk, base, n⟩

theorem isPast_of_kvInSize {io : IOMap} {tname : TensorName} {n : ℕ}
    (h : kvInSize io tname = some n) : isPast tname = true ∧ io[inName tname]? = some n := by
  unfold kvInSize at h
  split_ifs at h with hp
  exact ⟨hp, h⟩

/-- A list with one more entry, split at an entry. -/
theorem concat_split {α : Type} {l before after : List α} {a b : α}
    (h : l ++ [b] = before ++ a :: after) :
    (after = [] ∧ a = b) ∨ ∃ after', after = after' ++ [b] ∧ l = before ++ a :: after' := by
  rcases List.eq_nil_or_concat' after with rfl | ⟨after', c, rfl⟩
  · obtain ⟨-, hb⟩ := List.append_inj' h rfl
    exact Or.inl ⟨rfl, (List.cons.inj hb).1.symm⟩
  · have h' : l ++ [b] = (before ++ a :: after') ++ [c] := by simpa using h
    obtain ⟨hl, hb⟩ := List.append_inj' h' rfl
    obtain rfl := (List.cons.inj hb).1
    exact Or.inr ⟨after', rfl, hl⟩

/-- A KV input is skipped. -/
theorem Registered.skip {info : Std.TreeMap TensorName (ℕ × ℕ)} {io : IOMap}
    {seen : List (TensorName × ℕ)} {allocs : GraphAllocs} (h : Registered info io seen allocs)
    {t : TensorName × ℕ} (hkv : isKVIn t.1 = true) : Registered info io (seen ++ [t]) allocs := by
  have hseen : ∀ u ∈ seen ++ [t], isKVIn u.1 = false → u ∈ seen := by
    intro u hu hno
    rcases List.mem_append.mp hu with hu | hu
    · exact hu
    · rw [List.mem_singleton.mp hu, hkv] at hno
      cases hno
  refine ⟨fun tname a ha => ?_, fun u hu hno => h.out u (hseen u hu hno) hno,
    fun u hu hno => h.kvIn u (hseen u hu hno) hno, fun before u after heq hno hafter => ?_⟩
  · obtain ⟨u, hu, hrest⟩ := h.source tname a ha
    exact ⟨u, List.mem_append_left _ hu, hrest⟩
  · rcases concat_split heq with ⟨-, rfl⟩ | ⟨after', rfl, hseen'⟩
    · rw [hkv] at hno
      cases hno
    · exact h.last before u after' hseen' hno fun v hv => hafter v (List.mem_append_left _ hv)

/-- An output is placed, with the KV input that goes with it. -/
theorem Registered.place {info : Std.TreeMap TensorName (ℕ × ℕ)} {io : IOMap}
    {seen : List (TensorName × ℕ)} {allocs allocs' : GraphAllocs}
    (h : Registered info io seen allocs) {t : TensorName × ℕ} {chunk base : ℕ}
    (hkv : isKVIn t.1 = false) (hnew : t.1 ∉ seen.map Prod.fst)
    (hinfo : info[t.1]? = some (chunk, base))
    (hself : allocs'[t.1]? = some ⟨chunk, base + (kvInSize io t.1).getD 0, t.2⟩)
    (hin : ∀ n, kvInSize io t.1 = some n → allocs'[inName t.1]? = some ⟨chunk, base, n⟩)
    (hother : ∀ v : TensorName, v ≠ t.1 → (kvInSize io t.1 = none ∨ v ≠ inName t.1) →
      allocs'[v]? = allocs[v]?) : Registered info io (seen ++ [t]) allocs' := by
  have hne : ∀ u ∈ seen, u.1 ≠ t.1 := fun u hu heq => hnew (heq ▸ List.mem_map_of_mem hu)
  have hname : ∀ u : TensorName × ℕ, isPast u.1 = true → inName u.1 ≠ t.1 := by
    intro u hp heq
    have := isKVIn_inName hp
    rw [heq, hkv] at this
    cases this
  -- the names of the outputs seen are not touched
  have hout : ∀ u ∈ seen, isKVIn u.1 = false → allocs'[u.1]? = allocs[u.1]? := by
    intro u hu hno
    apply hother _ (hne u hu)
    cases hk : kvInSize io t.1 with
    | none => exact Or.inl rfl
    | some n =>
      right
      intro heq
      rw [heq, isKVIn_inName (isPast_of_kvInSize hk).1] at hno
      cases hno
  constructor
  · intro tname a ha
    by_cases hself' : tname = t.1
    · subst hself'
      rw [hself] at ha
      exact ⟨t, by simp, hkv, chunk, base, hinfo, Or.inl ⟨rfl, (Option.some.inj ha).symm⟩⟩
    · by_cases hin' : kvInSize io t.1 = none ∨ tname ≠ inName t.1
      · rw [hother tname hself' hin'] at ha
        obtain ⟨u, hu, hrest⟩ := h.source tname a ha
        exact ⟨u, List.mem_append_left _ hu, hrest⟩
      · obtain ⟨hk, heq⟩ := not_or.mp hin'
        obtain ⟨n, hn⟩ := Option.ne_none_iff_exists'.mp hk
        have heq : tname = inName t.1 := not_not.mp heq
        rw [heq, hin n hn] at ha
        exact ⟨t, by simp, hkv, chunk, base, hinfo,
          Or.inr ⟨heq, n, hn, (Option.some.inj ha).symm⟩⟩
  · intro u hu hno
    rcases List.mem_append.mp hu with hu | hu
    · rw [hout u hu hno]
      exact h.out u hu hno
    · rw [List.mem_singleton.mp hu]
      exact ⟨chunk, base, hinfo, hself⟩
  · intro u hu hno n hn
    by_cases heq : inName u.1 = inName t.1
    · have hn' : kvInSize io t.1 = some n ∨ kvInSize io t.1 = none := by
        cases hk : kvInSize io t.1 with
        | none => exact Or.inr rfl
        | some m =>
          have hm := (isPast_of_kvInSize hk).2
          rw [← heq, (isPast_of_kvInSize hn).2] at hm
          exact Or.inl hm.symm
      rcases hn' with hn' | hn'
      · rw [heq]
        exact ⟨_, hin n hn', rfl⟩
      · rcases List.mem_append.mp hu with hu | hu
        · rw [hother _ (hname u (isPast_of_kvInSize hn).1) (Or.inl hn')]
          exact h.kvIn u hu hno n hn
        · rw [List.mem_singleton.mp hu, hn'] at hn
          cases hn
    · rcases List.mem_append.mp hu with hu | hu
      · rw [hother _ (hname u (isPast_of_kvInSize hn).1) (Or.inr heq)]
        exact h.kvIn u hu hno n hn
      · rw [List.mem_singleton.mp hu] at heq
        exact absurd rfl heq
  · intro before u after heq hno hafter n hn
    rcases concat_split heq with ⟨rfl, rfl⟩ | ⟨after', rfl, hseen⟩
    · exact ⟨chunk, base, hinfo, hin n hn⟩
    · obtain ⟨c, b, hb, ha⟩ := h.last before u after' hseen hno
        (fun v hv => hafter v (List.mem_append_left _ hv)) n hn
      refine ⟨c, b, hb, ?_⟩
      rw [hother _ (hname u (isPast_of_kvInSize hn).1), ha]
      rcases hafter t (by simp) with hkv' | hnone | hne'
      · rw [hkv] at hkv'
        cases hkv'
      · exact Or.inl hnone
      · exact Or.inr hne'.symm

/-- One more tensor. -/
theorem registerTensor_registered {info : Std.TreeMap TensorName (ℕ × ℕ)} {io : IOMap}
    {seen : List (TensorName × ℕ)} {allocs allocs' : GraphAllocs}
    (h : Registered info io seen allocs) {t : TensorName × ℕ} (hnew : t.1 ∉ seen.map Prod.fst)
    (hrun : registerTensor info io allocs t = some allocs') :
    Registered info io (seen ++ [t]) allocs' := by
  unfold registerTensor at hrun
  by_cases hkv : isKVIn t.1 = true
  · rw [if_pos hkv] at hrun
    obtain rfl := Option.some.inj hrun
    exact h.skip hkv
  · rw [if_neg hkv] at hrun
    obtain ⟨⟨chunk, base⟩, hinfo, hrun⟩ := Option.bind_eq_some_iff.mp hrun
    have hkv : isKVIn t.1 = false := Bool.eq_false_iff.mpr hkv
    cases hk : kvInSize io t.1 with
    | none =>
      simp only [hk] at hrun
      obtain rfl := Option.some.inj hrun
      refine h.place hkv hnew hinfo ?_ (fun n hn => ?_) fun v hv _ => ?_
      · rw [hk, Std.TreeMap.getElem?_insert_self]
        rfl
      · rw [hk] at hn
        cases hn
      · rw [AllocState.getElem?_insert_eq, if_neg hv.symm]
    | some n =>
      simp only [hk] at hrun
      obtain rfl := Option.some.inj hrun
      have hin : t.1 ≠ inName t.1 := by
        intro heq
        have := isKVIn_inName (isPast_of_kvInSize hk).1
        rw [← heq, hkv] at this
        cases this
      refine h.place hkv hnew hinfo ?_ (fun m hm => ?_) fun v hv hv' => ?_
      · rw [hk, Std.TreeMap.getElem?_insert_self]
        rfl
      · obtain rfl := Option.some.inj (hk.symm.trans hm)
        rw [AllocState.getElem?_insert_eq, if_neg hin, Std.TreeMap.getElem?_insert_self]
      · have hv' : v ≠ inName t.1 := hv'.resolve_left (by rw [hk]; exact Option.some_ne_none n)
        rw [AllocState.getElem?_insert_eq, if_neg hv.symm, AllocState.getElem?_insert_eq,
          if_neg hv'.symm]

/-- All the tensors of a graph. -/
theorem registerTensors_registered {info : Std.TreeMap TensorName (ℕ × ℕ)} {io : IOMap}
    (rest : List (TensorName × ℕ)) :
    ∀ {seen : List (TensorName × ℕ)} {allocs allocs' : GraphAllocs},
      Registered info io seen allocs → ((seen ++ rest).map Prod.fst).Nodup →
      rest.foldlM (registerTensor info io) allocs = some allocs' →
        Registered info io (seen ++ rest) allocs' := by
  induction rest with
  | nil =>
    intro seen allocs allocs' h _ hrun
    obtain rfl := Option.some.inj hrun
    rwa [List.append_nil]
  | cons t rest ih =>
    intro seen allocs allocs' h hnodup hrun
    rw [List.foldlM_cons] at hrun
    obtain ⟨allocs₁, h₁, hrun⟩ := Option.bind_eq_some_iff.mp hrun
    have hsplit : seen ++ t :: rest = (seen ++ [t]) ++ rest := by simp
    have hnew : t.1 ∉ seen.map Prod.fst := by
      rw [List.map_append, List.nodup_append] at hnodup
      exact fun hmem => hnodup.2.2 _ hmem _ List.mem_cons_self rfl
    rw [hsplit] at hnodup ⊢
    exact ih (registerTensor_registered h hnew h₁) hnodup hrun

/-! ## The plan -/

/-- What the three functions leave, put together: the chunks and slots of the names, and where in
them the tensors of each graph lie. -/
structure Planned (graphs : List GraphInfo) (plan : TensorPlan) : Prop where
  inv : plan.alloc.Inv
  room : ∀ g ∈ graphs, ∀ t ∈ g.io.toList, HasRoom plan.alloc g.io t
  known : ∀ tname ∈ plan.buffers.tensorAllocInfo, ∃ n, plan.alloc.slot tname = some n
  slot : ∀ (tname : TensorName) (n : ℕ), plan.alloc.slot tname = some n →
    ∃ chunk base, SlotAt plan.buffers tname chunk ⟨base, n⟩
  apart : ∀ (tname tname' : TensorName) (n n' chunk base base' : ℕ), tname ≠ tname' →
    plan.alloc.slot tname = some n → plan.alloc.slot tname' = some n' →
    plan.buffers.tensorAllocInfo[tname]? = some (chunk, base) →
    plan.buffers.tensorAllocInfo[tname']? = some (chunk, base') →
    Range.Disjoint ⟨base, n⟩ ⟨base', n'⟩
  registered : ∀ g allocs, plan.HasGraph graphs g allocs →
    Registered plan.buffers.tensorAllocInfo g.io g.io.toList allocs

theorem mapM_get {α β : Type} {f : α → Option β} {l : List α} {l' : List β}
    (h : l.mapM f = some l') :
    ∀ {i : ℕ} {a : α} {b : β}, l[i]? = some a → l'[i]? = some b → f a = some b := by
  induction l generalizing l' with
  | nil => intro i a b ha; cases ha
  | cons c l ih =>
    intro i a b ha hb
    rw [List.mapM_cons] at h
    obtain ⟨c', hc, h⟩ := Option.bind_eq_some_iff.mp h
    obtain ⟨l'', hl, h⟩ := Option.bind_eq_some_iff.mp h
    obtain rfl := Option.some.inj h
    cases i with
    | zero =>
      obtain rfl : c = a := by simpa using ha
      obtain rfl : c' = b := by simpa using hb
      exact hc
    | succ i => exact ih hl (by simpa using ha) (by simpa using hb)

theorem planned {rpcAlloc : ℕ → ℕ → Bool} {mapFused : GraphAllocs → Bool} {fused : List ℕ}
    {graphs : List GraphInfo} {plan : TensorPlan}
    (h : planTensors rpcAlloc mapFused fused graphs = some plan) : Planned graphs plan := by
  unfold planTensors at h
  obtain ⟨buffers, hbuf, h⟩ := Option.bind_eq_some_iff.mp h
  obtain ⟨graphAllocs, hreg, h⟩ := Option.bind_eq_some_iff.mp h
  obtain rfl := Option.some.inj h
  obtain ⟨hinv, -, hroom⟩ := accumulateGraphs_inv graphs inv_nil
  change (parseIOTensorsAndAccumulate graphs).Inv at hinv
  obtain ⟨-, hkeep, hslots⟩ := allocateChunks_slots _ hbuf hinv.chunks_apart
  refine ⟨hinv, hroom, fun tname hmem => ?_, fun tname n hn => ?_, ?_, fun g allocs hg => ?_⟩
  · by_contra hno
    have hnone := hkeep tname fun p hp hmem' => by
      obtain ⟨n, hn⟩ := Option.isSome_iff_exists.mp (Std.TreeMap.mem_iff_isSome_getElem?.mp hmem')
      rw [← AllocState.chunk_of_mem hp] at hn
      exact hno ⟨n, hinv.slot_eq hn⟩
    have hsome := Std.TreeMap.mem_iff_isSome_getElem?.mp hmem
    rw [hnone] at hsome
    simp at hsome
  · obtain ⟨m, hm, hn⟩ := AllocState.chunk_of_slot hn
    obtain ⟨chunk, base, -, hat⟩ := hslots.slot m hm tname n hn
    exact ⟨chunk, base, hat⟩
  · intro tname tname' n n' chunk base base' hne hn hn' hb hb'
    obtain ⟨m, hm, hn⟩ := AllocState.chunk_of_slot hn
    obtain ⟨m', hm', hn'⟩ := AllocState.chunk_of_slot hn'
    exact hslots.apart m hm m' hm' tname tname' n n' chunk base base' hne hn hn' hb hb'
  · obtain ⟨i, hi, hi'⟩ := hg
    have hrun := mapM_get hreg hi hi'
    unfold registerTensorsWithBackend at hrun
    obtain ⟨allocs', hfold, hrun⟩ := Option.bind_eq_some_iff.mp hrun
    split_ifs at hrun
    obtain rfl := Option.some.inj hrun
    have hnil : Registered buffers.tensorAllocInfo g.io [] ∅ :=
      ⟨fun _ _ ha => by simp at ha, fun _ ht => (nomatch ht), fun _ ht => (nomatch ht),
        fun _ _ _ heq => by simp at heq⟩
    have hnodup : (([] ++ g.io.toList).map Prod.fst).Nodup := by
      rw [List.nil_append, List.nodup_iff_pairwise_ne, List.pairwise_map]
      apply Std.TreeMap.distinct_keys_toList.imp
      intro p q hne heq
      exact hne (heq ▸ Std.ReflOrd.compare_self)
    exact registerTensors_registered g.io.toList hnil hnodup hfold

section Planned

variable {graphs : List GraphInfo} {plan : TensorPlan} {g : GraphInfo} {allocs : GraphAllocs}

/-- A tensor lies in the slot of the output it was placed with. -/
structure InSlot (plan : TensorPlan) (io : IOMap) (tname out : TensorName) (a : TensorAlloc)
    (base n : ℕ) : Prop where
  slot : plan.alloc.slot out = some n
  info : plan.buffers.tensorAllocInfo[out]? = some (a.allocIdx, base)
  within : a.range.Within ⟨base, n⟩
  place : tname = out ∧ a.offset = base + (kvInSize io out).getD 0 ∨
    tname = inName out ∧ a.offset = base ∧ kvInSize io out = some a.size

theorem TensorPlan.HasGraph.mem (hg : plan.HasGraph graphs g allocs) : g ∈ graphs := by
  obtain ⟨i, hi, -⟩ := hg
  exact List.mem_of_getElem? hi

theorem Planned.inSlot (h : Planned graphs plan) (hg : plan.HasGraph graphs g allocs)
    {tname : TensorName} {a : TensorAlloc} (ha : allocs[tname]? = some a) :
    ∃ out base n, InSlot plan g.io tname out a base n := by
  obtain ⟨t, ht, hkv, chunk, base, hinfo, hplace⟩ := (h.registered g allocs hg).source tname a ha
  obtain ⟨n, hn, hle⟩ := h.room g hg.mem t ht hkv
  rcases hplace with ⟨rfl, rfl⟩ | ⟨rfl, k, hk, rfl⟩
  · refine ⟨t.1, base, n, hn, hinfo, ⟨Nat.le_add_right _ _, ?_⟩, Or.inl ⟨rfl, rfl⟩⟩
    show base + (kvInSize g.io t.1).getD 0 + t.2 ≤ base + n
    omega
  · refine ⟨t.1, base, n, hn, hinfo, ⟨le_rfl, ?_⟩, Or.inr ⟨rfl, rfl, hk⟩⟩
    rw [hk, Option.getD_some] at hle
    show base + k ≤ base + n
    omega

/-- Tensors in different slots are apart. -/
theorem InSlot.disjoint {io io' : IOMap} {tname tname' out out' : TensorName} {a a' : TensorAlloc}
    {base base' n n' : ℕ} (h : Planned graphs plan) (hs : InSlot plan io tname out a base n)
    (hs' : InSlot plan io' tname' out' a' base' n') (hne : out ≠ out')
    (hidx : a.allocIdx = a'.allocIdx) : a.range.Disjoint a'.range := by
  have hinfo := hs.info
  rw [hidx] at hinfo
  exact (h.apart out out' n n' _ base base' hne hs.slot hs'.slot hinfo hs'.info).mono hs.within
    hs'.within

theorem Planned.inside (h : Planned graphs plan) (hg : plan.HasGraph graphs g allocs)
    {tname : TensorName} {a : TensorAlloc} (ha : allocs[tname]? = some a) :
    ∃ size, plan.buffers.fusedBuffers[a.allocIdx]? = some size ∧ a.offset + a.size ≤ size := by
  obtain ⟨out, base, n, hs⟩ := h.inSlot hg ha
  obtain ⟨chunk, base', hinfo, size, hsize, hin⟩ := h.slot out n hs.slot
  obtain ⟨rfl, rfl⟩ := Prod.mk.inj (Option.some.inj (hs.info.symm.trans hinfo))
  have := (hs.within.trans hin).2
  exact ⟨size, hsize, by simpa [TensorAlloc.range] using this⟩

theorem Planned.disjoint (h : Planned graphs plan) (hg : plan.HasGraph graphs g allocs)
    {tname tname' : TensorName} {a a' : TensorAlloc} (hne : tname ≠ tname')
    (ha : allocs[tname]? = some a) (ha' : allocs[tname']? = some a')
    (hidx : a.allocIdx = a'.allocIdx) : a.range.Disjoint a'.range := by
  obtain ⟨out, base, n, hs⟩ := h.inSlot hg ha
  obtain ⟨out', base', n', hs'⟩ := h.inSlot hg ha'
  by_cases hout : out = out'
  · -- one is the output, the other the KV input in front of it
    subst hout
    obtain ⟨-, rfl⟩ := Prod.mk.inj (Option.some.inj (hs.info.symm.trans hs'.info))
    rcases hs.place with ⟨rfl, hoff⟩ | ⟨rfl, hoff, hk⟩ <;>
      rcases hs'.place with ⟨rfl, hoff'⟩ | ⟨rfl, hoff', hk'⟩
    · exact absurd rfl hne
    · right
      rw [hk', Option.getD_some] at hoff
      show a'.offset + a'.size ≤ a.offset
      omega
    · left
      rw [hk, Option.getD_some] at hoff'
      show a.offset + a.size ≤ a'.offset
      omega
    · exact absurd rfl hne
  · exact hs.disjoint h hs' hout hidx

/-- A KV input lies in the slot of `past_X_out`, if that is the last that takes it. -/
theorem Planned.pastIn_placed (h : Planned graphs plan) (hg : plan.HasGraph graphs g allocs)
    {X : List Char} (hX : Carries g X) (hlast : OutLast g.io X) : ∃ n chunk base, g.io[pastIn X]? = some n ∧
      plan.buffers.tensorAllocInfo[pastOut X]? = some (chunk, base) ∧
      allocs[pastIn X]? = some ⟨chunk, base, n⟩ := by
  obtain ⟨m, hm⟩ := Option.isSome_iff_exists.mp (Std.TreeMap.mem_iff_isSome_getElem?.mp hX.2)
  obtain ⟨n, hn⟩ := Option.isSome_iff_exists.mp (Std.TreeMap.mem_iff_isSome_getElem?.mp hX.1)
  have hk : kvInSize g.io (pastOut X) = some n := by
    unfold kvInSize
    rw [if_pos (isPast_pastOut X), inName_pastOut, hn]
  obtain ⟨before, after, hsplit⟩ :=
    List.append_of_mem (Std.TreeMap.mem_toList_iff_getElem?_eq_some.mpr hm)
  have hafter : ∀ u ∈ after, isKVIn u.1 = true ∨ kvInSize g.io u.1 = none ∨
      inName u.1 ≠ inName (pastOut X) := by
    intro u hu
    by_contra hno
    obtain ⟨hkv, hno⟩ := not_or.mp hno
    obtain ⟨hsome, hin⟩ := not_or.mp hno
    obtain ⟨k, hk⟩ := Option.ne_none_iff_exists'.mp hsome
    have hmem : u ∈ g.io.toList := by rw [hsplit]; simp [hu]
    have hlt : compare (pastOut X) u.1 = .lt := by
      have hord := g.io.ordered_keys_toList
      rw [hsplit, List.pairwise_append] at hord
      exact (List.pairwise_cons.mp hord.2.1).1 u hu
    have hstem : stem u.1 = pastStem X := by
      have heq := stem_of_inName (not_not.mp hin)
      rw [heq]
      exact stem_append (v := "out".toList) (by decide)
    refine hlast u.1 (Std.TreeMap.mem_iff_isSome_getElem?.mpr ?_) (isPast_of_kvInSize hk).1
      (Bool.eq_false_iff.mpr hkv) hstem (Std.OrientedCmp.gt_of_lt hlt)
    rw [Std.TreeMap.mem_toList_iff_getElem?_eq_some.mp (show (u.1, u.2) ∈ _ from hmem)]
    rfl
  obtain ⟨chunk, base, hinfo, ha⟩ := (h.registered g allocs hg).last before (pastOut X, m) after
    hsplit (isKVIn_pastOut X) hafter n hk
  rw [inName_pastOut] at ha
  exact ⟨n, chunk, base, hn, hinfo, ha⟩

theorem Planned.kvShared (h : Planned graphs plan) {X : List Char}
    (hlast : ∀ g ∈ graphs, Carries g X → OutLast g.io X) : KVShared graphs plan X := by
  intro g₀ hg₀ hX₀
  have hroom : ∀ g ∈ graphs, Carries g X → ∃ n k, plan.alloc.slot (pastOut X) = some n ∧
      g.io[pastIn X]? = some k ∧ k ≤ n := by
    intro g hg hX
    obtain ⟨m, hm⟩ := Option.isSome_iff_exists.mp (Std.TreeMap.mem_iff_isSome_getElem?.mp hX.2)
    obtain ⟨k, hk⟩ := Option.isSome_iff_exists.mp (Std.TreeMap.mem_iff_isSome_getElem?.mp hX.1)
    obtain ⟨n, hn, hle⟩ := h.room g hg (pastOut X, m)
      (Std.TreeMap.mem_toList_iff_getElem?_eq_some.mpr hm) (isKVIn_pastOut X)
    refine ⟨n, k, hn, hk, ?_⟩
    unfold kvInSize at hle
    rw [if_pos (isPast_pastOut X), inName_pastOut, hk] at hle
    exact (Nat.le_add_left _ _).trans hle
  obtain ⟨room, -, hslot, -⟩ := hroom g₀ hg₀ hX₀
  obtain ⟨chunk, base, hinfo, size, hsize, hin⟩ := h.slot _ _ hslot
  refine ⟨chunk, base, room, size, hsize, by simpa [Range.Within] using hin, fun g allocs hg =>
    ⟨fun hX => ?_, fun tname a hin hout ha hidx => ?_⟩⟩
  · obtain ⟨n, chunk', base', hn, hinfo', ha⟩ := h.pastIn_placed hg hX (hlast g hg.mem hX)
    obtain ⟨rfl, rfl⟩ := Prod.mk.inj (Option.some.inj (hinfo'.symm.trans hinfo))
    obtain ⟨n', k, hn', hk, hle⟩ := hroom g hg.mem hX
    obtain rfl := Option.some.inj (hslot.symm.trans hn')
    obtain rfl := Option.some.inj (hn.symm.trans hk)
    exact ⟨n, hn, hle, ha⟩
  · obtain ⟨out, base', n', hs⟩ := h.inSlot hg ha
    have hne : out ≠ pastOut X := by
      rintro rfl
      rcases hs.place with ⟨rfl, -⟩ | ⟨rfl, -⟩
      · exact hout rfl
      · exact hin (inName_pastOut X)
    have hinfo' := hs.info
    rw [hidx] at hinfo'
    exact (h.apart out (pastOut X) n' room _ base' base hne hs.slot hslot hinfo' hinfo).mono
      hs.within (Range.Within.refl _)

end Planned

/-- **The shared-memory plan never overlaps live tensors.** For any graphs and tensor names, when
the three functions succeed: every planned name is in one chunk, the tensors of a graph lie in
disjoint ranges of the allocated chunks, and in all graphs that carry both, `past_X_in` has one
place, unless another tensor named `past_X_...` comes after `past_X_out` and takes it. -/
theorem plan_sound {rpcAlloc : ℕ → ℕ → Bool} {mapFused : GraphAllocs → Bool} {fused : List ℕ}
    {graphs : List GraphInfo} {plan : TensorPlan}
    (h : planTensors rpcAlloc mapFused fused graphs = some plan) :
    PlanSound (fun X => ∀ g ∈ graphs, Carries g X → OutLast g.io X) graphs plan := by
  have hplan := planned h
  refine ⟨fun tname hmem => ?_, fun g allocs hg tname n hn hin => ?_,
    fun g allocs hg tname a ha => hplan.inside hg ha,
    fun g allocs hg tname tname' a a' hne ha ha' hidx => hplan.disjoint hg hne ha ha' hidx,
    fun X hX => hplan.kvShared hX⟩
  · obtain ⟨n, hn⟩ := hplan.known tname hmem
    unfold AllocState.slot at hn
    cases hctx : plan.alloc.tensorCtxMap[tname]? with
    | none => rw [hctx] at hn; cases hn
    | some ctxs =>
      rw [hctx] at hn
      have hn : (plan.alloc.chunk ctxs)[tname]? = some n := hn
      refine ⟨ctxs, Std.TreeMap.mem_iff_isSome_getElem?.mpr (by rw [hn]; rfl),
        fun ctxs' hmem' => ?_⟩
      obtain ⟨n', hn'⟩ := Option.isSome_iff_exists.mp (Std.TreeMap.mem_iff_isSome_getElem?.mp hmem')
      exact (Option.some.inj (hctx.symm.trans (hplan.inv.owner _ _ _ hn'))).symm
  · have hreg := hplan.registered g allocs hg
    rcases hin with hkv | ⟨out, hout, hkv, hpast, rfl⟩
    · obtain ⟨chunk, base, -, ha⟩ := hreg.out (tname, n)
        (Std.TreeMap.mem_toList_iff_getElem?_eq_some.mpr hn) hkv
      exact ⟨_, ha, rfl⟩
    · obtain ⟨m, hm⟩ := Option.isSome_iff_exists.mp (Std.TreeMap.mem_iff_isSome_getElem?.mp hout)
      have hk : kvInSize g.io out = some n := by
        unfold kvInSize
        rw [if_pos hpast, hn]
      exact hreg.kvIn (out, m) (Std.TreeMap.mem_toList_iff_getElem?_eq_some.mpr hm) hkv n hk

/-! ## A small plan -/

/-- A graph of context 0 with the KV pair `k`, and with `past_k_zz` besides if `extra`. -/
def tinyGraph (contextIdx kvSize : ℕ) (extra : Bool) : GraphInfo where
  contextIdx := contextIdx
  inputTensors := [("past_k_in".toList, kvSize), ("x".toList, 16)]
  outputTensors := ("past_k_out".toList, 8) ::
    if extra then [("past_k_zz".toList, 24)] else []

def tinyPlan (graphs : List GraphInfo) : Option TensorPlan :=
  planTensors (fun _ _ => true) (fun _ => true) [] graphs

theorem outLast_of_keys {io : IOMap} {X : List Char}
    (h : ∀ tname ∈ io.keys, isPast tname = true → isKVIn tname = false →
      stem tname = pastStem X → compare tname (pastOut X) ≠ .gt) : OutLast io X :=
  fun tname hmem => h tname (Std.TreeMap.mem_keys.mpr hmem)

/-- Two graphs of two contexts that share the pair. -/
theorem plan_sound_tiny : ∃ plan, tinyPlan [tinyGraph 0 8 false, tinyGraph 1 32 false] = some plan ∧
    KVShared [tinyGraph 0 8 false, tinyGraph 1 32 false] plan ['k'] := by
  have h : (tinyPlan [tinyGraph 0 8 false, tinyGraph 1 32 false]).isSome = true := by
    decide +kernel
  obtain ⟨plan, hplan⟩ := Option.isSome_iff_exists.mp h
  refine ⟨plan, hplan, (plan_sound hplan).shared ['k'] fun g hg _ => ?_⟩
  have hg : g = tinyGraph 0 8 false ∨ g = tinyGraph 1 32 false := by simpa using hg
  rcases hg with rfl | rfl <;> exact outLast_of_keys (by decide +kernel)

/-- With `past_k_zz` in the first graph only, the two graphs have `past_k_in` in different
chunks. -/
theorem split_kv : ∃ plan, tinyPlan [tinyGraph 0 8 true, tinyGraph 1 32 false] = some plan ∧
    ¬PlanSound (fun _ => True) [tinyGraph 0 8 true, tinyGraph 1 32 false] plan := by
  have h : (tinyPlan [tinyGraph 0 8 true, tinyGraph 1 32 false]).map (fun plan =>
      plan.graphAllocs.map fun allocs => (allocs[pastIn ['k']]?).map TensorAlloc.allocIdx) =
        some [some 0, some 1] := by
    decide +kernel
  obtain ⟨plan, hplan, hidx⟩ := Option.map_eq_some_iff.mp h
  obtain ⟨allocs, rest, hallocs, hfirst, hrest⟩ := List.map_eq_cons_iff.mp hidx
  obtain ⟨allocs', rest', hallocs', hsecond, -⟩ := List.map_eq_cons_iff.mp hrest
  refine ⟨plan, hplan, fun hsound => ?_⟩
  have hcarries₀ : Carries (tinyGraph 0 8 true) ['k'] :=
    ⟨Std.TreeMap.contains_iff_mem.mp (by decide +kernel),
      Std.TreeMap.contains_iff_mem.mp (by decide +kernel)⟩
  have hcarries₁ : Carries (tinyGraph 1 32 false) ['k'] :=
    ⟨Std.TreeMap.contains_iff_mem.mp (by decide +kernel),
      Std.TreeMap.contains_iff_mem.mp (by decide +kernel)⟩
  obtain ⟨chunk, base, room, size, -, -, hall⟩ := hsound.shared ['k'] trivial
    (tinyGraph 1 32 false) (by simp) hcarries₁
  obtain ⟨n, -, -, h₀⟩ := (hall _ allocs ⟨0, rfl, by rw [hallocs]; rfl⟩).1 hcarries₀
  obtain ⟨n', -, -, h₁⟩ := (hall _ allocs' ⟨1, rfl, by rw [hallocs, hallocs']; rfl⟩).1 hcarries₁
  rw [h₀] at hfirst
  rw [h₁] at hsecond
  exact absurd ((Option.some.inj hfirst).symm.trans (Option.some.inj hsecond)) (by decide)

end Geniex
