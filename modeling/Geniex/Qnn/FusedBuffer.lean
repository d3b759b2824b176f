import Mathlib.Logic.Function.Basic
import Mathlib.Logic.Relation
import Mathlib.Tactic

/-!
# Handles of the shared memory

`RpcMem::mapFusedBufferOffset` and the allocation of the chunks it maps tensors to. The backend's
table of registered handles stands beside the maps of `RpcMem`, and so do two marks the code does
not read: the chunks with their file descriptors, and what each tensor was last mapped to.

* `HandlesRight`: the handle of every mapped tensor is that of its last mapping.
* `CallFits`: the calls that keep it so.
-/

namespace Geniex

/-- `RpcMemTensorData`. -/
structure RpcMemTensorData where
  fd : Int32
  memPointer : UInt64
  size : UInt64
  totalBufferSize : UInt64
  offset : UInt64

/-- What a tensor was last mapped to: the chunk by its descriptor and address, the offset and the
context. -/
structure Mapping (Ctx : Type) where
  fd : Int32
  offset : UInt64
  ctx : Ctx
  base : UInt64

/-- The maps of `RpcMem`, the tensors' handles, the backend's table with all handles it has issued,
and the two marks. A tensor without a handle has `nullptr`. -/
structure FusedState (Tensor Ctx Handle : Type) where
  fusedBuffers : List (UInt64 × UInt64) := []
  fusedFds : List Int32 := []
  memHandleToRpcMem : Handle → Option RpcMemTensorData := fun _ => none
  memConfigList : Int32 × UInt64 × Ctx → Option Tensor := fun _ => none
  memHandle : Tensor → Option Handle := fun _ => none
  backend : Handle → Option (Int32 × UInt64 × Ctx) := fun _ => none
  issued : List Handle := []
  chunks : List (UInt64 × Int32) := []
  last : Tensor → Option (Mapping Ctx) := fun _ => none

/-- A call, with what the backend or the driver returns to it. -/
inductive FusedCall (Tensor Ctx Handle : Type)
  /-- A round of the loop of `allocateBuffers`. -/
  | allocateBuffers (memPointer bufferSize : UInt64) (fd : Int32)
  | allocateTensorFusedBuffer (memPointer bufferSize : UInt64) (fd : Int32)
  | map (tensor : Tensor) (tensorDataSize : UInt64) (fd : Int32) (offset : UInt32)
    (totalBufferSize memPointer : UInt64) (contextHandle : Ctx) (memHandle : Handle)
  | mapIndex (tensor : Tensor) (allocIdx : ℕ) (offset : UInt64) (ctx : Ctx) (size : UInt64)
    (memHandle : Handle)

variable {Tensor Ctx Handle : Type} [DecidableEq Tensor] [DecidableEq Ctx] [DecidableEq Handle]

namespace FusedState

/-- `memRegister`, and what is kept of it. -/
def register (s : FusedState Tensor Ctx Handle) (tensor : Tensor) (tensorDataSize : UInt64)
    (fd : Int32) (offset : UInt32) (totalBufferSize memPointer : UInt64) (contextHandle : Ctx)
    (memHandle : Handle) : FusedState Tensor Ctx Handle :=
  { s with
    backend := Function.update s.backend memHandle (some (fd, offset.toUInt64, contextHandle))
    issued := memHandle :: s.issued
    memHandleToRpcMem := Function.update s.memHandleToRpcMem memHandle
      (some ⟨fd, memPointer + offset.toUInt64, tensorDataSize, totalBufferSize, offset.toUInt64⟩)
    memHandle := Function.update s.memHandle tensor (some memHandle) }

/-- `RpcMem::mapFusedBufferOffset`; `none` is the exception of `at`. -/
def mapFusedBufferOffset (s : FusedState Tensor Ctx Handle) (tensor : Tensor)
    (tensorDataSize : UInt64) (fd : Int32) (offset : UInt32) (totalBufferSize memPointer : UInt64)
    (contextHandle : Ctx) (memHandle : Handle) : Option (FusedState Tensor Ctx Handle) :=
  match s.memHandle tensor with
  | some cur =>
    match s.memHandleToRpcMem cur with
    | none => none
    | some data =>
      if data.fd = fd ∧ data.offset = offset.toUInt64 then some s
      else
        -- `memDeRegister` of the handle, and a new one
        some (register { s with
            memHandleToRpcMem := Function.update s.memHandleToRpcMem cur none
            backend := Function.update s.backend cur none }
          tensor (if tensorDataSize = 0 then data.size else tensorDataSize) fd offset
          totalBufferSize memPointer contextHandle memHandle)
  | none =>
    match s.memConfigList (fd, offset.toUInt64, contextHandle) with
    | some parent =>
      some { s with memHandle := Function.update s.memHandle tensor (s.memHandle parent) }
    | none =>
      some (register { s with
          memConfigList := Function.update s.memConfigList (fd, offset.toUInt64, contextHandle)
            (some tensor) }
        tensor tensorDataSize fd offset totalBufferSize memPointer contextHandle memHandle)

/-- What a tensor was last mapped to. -/
def mark (s : FusedState Tensor Ctx Handle) (tensor : Tensor) (l : Mapping Ctx) :
    FusedState Tensor Ctx Handle :=
  { s with last := Function.update s.last tensor (some l) }

section Fields

variable (s : FusedState Tensor Ctx Handle) {tensor t : Tensor} (l : Mapping Ctx)

omit [DecidableEq Ctx] [DecidableEq Handle] in
@[simp] theorem mark_last_self : (s.mark tensor l).last tensor = some l :=
  Function.update_self _ _ _

omit [DecidableEq Ctx] [DecidableEq Handle] in
theorem mark_last_of_ne (h : t ≠ tensor) : (s.mark tensor l).last t = s.last t :=
  Function.update_of_ne h _ _

omit [DecidableEq Ctx] [DecidableEq Handle] in
@[simp] theorem mark_memHandle : (s.mark tensor l).memHandle = s.memHandle := rfl

variable {size : UInt64} {fd : Int32} {offset : UInt32} {total memPointer : UInt64} {ctx : Ctx}
  {memHandle : Handle}

omit [DecidableEq Ctx] in
@[simp] theorem register_last :
    (s.register tensor size fd offset total memPointer ctx memHandle).last = s.last := rfl

omit [DecidableEq Ctx] in
@[simp] theorem register_memHandle_self :
    (s.register tensor size fd offset total memPointer ctx memHandle).memHandle tensor =
      some memHandle :=
  Function.update_self _ _ _

omit [DecidableEq Ctx] in
theorem register_memHandle_of_ne (h : t ≠ tensor) :
    (s.register tensor size fd offset total memPointer ctx memHandle).memHandle t =
      s.memHandle t :=
  Function.update_of_ne h _ _

end Fields

/-- The calls. The overload by index narrows its offset; an index out of range is `none`. -/
def call (s : FusedState Tensor Ctx Handle) :
    FusedCall Tensor Ctx Handle → Option (FusedState Tensor Ctx Handle)
  | .allocateBuffers memPointer bufferSize fd =>
    some { s with
      fusedFds := s.fusedFds ++ [fd]
      fusedBuffers := s.fusedBuffers ++ [(memPointer, bufferSize)]
      chunks := s.chunks ++ [(memPointer, fd)] }
  | .allocateTensorFusedBuffer memPointer bufferSize fd =>
    some { s with
      fusedBuffers := s.fusedBuffers ++ [(memPointer, bufferSize)]
      chunks := s.chunks ++ [(memPointer, fd)] }
  | .map tensor size fd offset total memPointer ctx memHandle =>
    (s.mapFusedBufferOffset tensor size fd offset total memPointer ctx memHandle).map
      (mark · tensor ⟨fd, offset.toUInt64, ctx, memPointer⟩)
  | .mapIndex tensor allocIdx offset ctx size memHandle =>
    match s.fusedFds[allocIdx]?, s.fusedBuffers[allocIdx]?, s.chunks[allocIdx]? with
    | some fd, some (memPointer, total), some chunk =>
      (s.mapFusedBufferOffset tensor size fd offset.toUInt32 total memPointer ctx memHandle).map
        (mark · tensor ⟨chunk.2, offset, ctx, chunk.1⟩)
    | _, _, _ => none

/-- `RpcMem::getBuffer`: a null pointer without a handle, and `none` for the exception of `at`. -/
def getBuffer (s : FusedState Tensor Ctx Handle) (tensor : Tensor) : Option UInt64 :=
  match s.memHandle tensor with
  | none => some 0
  | some h => (s.memHandleToRpcMem h).map RpcMemTensorData.memPointer

end FusedState

/-! ## What is asked for -/

/-- What the driver, the backend and the callers promise: a new chunk has a descriptor of its own,
a handle that is issued is new, and a descriptor is passed with its own chunk's address. -/
def CallValid (s : FusedState Tensor Ctx Handle) : FusedCall Tensor Ctx Handle → Prop
  | .allocateBuffers _ _ fd | .allocateTensorFusedBuffer _ _ fd => fd ∉ s.chunks.map Prod.snd
  | .map _ _ fd _ _ memPointer _ memHandle =>
    memHandle ∉ s.issued ∧ (memPointer, fd) ∈ s.chunks
  | .mapIndex _ _ _ _ _ memHandle => memHandle ∉ s.issued

instance (s : FusedState Tensor Ctx Handle) (c : FusedCall Tensor Ctx Handle) :
    Decidable (CallValid s c) :=
  match c with
  | .allocateBuffers _ _ _ | .allocateTensorFusedBuffer _ _ _ => inferInstanceAs (Decidable (_ ∉ _))
  | .map _ _ _ _ _ _ _ _ => inferInstanceAs (Decidable (_ ∉ _ ∧ _ ∈ _))
  | .mapIndex _ _ _ _ _ _ => inferInstanceAs (Decidable (_ ∉ _))

/-- The states that calls that return true reach. -/
def FusedReachable : FusedState Tensor Ctx Handle → Prop :=
  Relation.ReflTransGen (fun s s' => ∃ c, CallValid s c ∧ s.call c = some s') {}

/-- The handle of every mapped tensor is registered for its last mapping, tensors share a handle
only where their mappings agree, and `getBuffer` is the address of the mapping. -/
structure HandlesRight (s : FusedState Tensor Ctx Handle) : Prop where
  registered : ∀ t l, s.last t = some l →
    ∃ h, s.memHandle t = some h ∧ s.backend h = some (l.fd, l.offset, l.ctx)
  shared : ∀ t t' l l', s.last t = some l → s.last t' = some l' →
    s.memHandle t = s.memHandle t' → l.fd = l'.fd ∧ l.offset = l'.offset ∧ l.ctx = l'.ctx
  buffer : ∀ t l, s.last t = some l → s.getBuffer t = some (l.base + l.offset)

/-- The mappings that keep the handles right. -/
structure MapFits (s : FusedState Tensor Ctx Handle) (tensor : Tensor) (fd : Int32)
    (offset : UInt64) (ctx : Ctx) : Prop where
  /-- A tensor that stays where it is stays in its context. -/
  stays : ∀ l, s.last tensor = some l → l.fd = fd → l.offset = offset → l.ctx = ctx
  /-- A tensor that moves shares its handle with no other. -/
  alone : ∀ l, s.last tensor = some l → ¬ (l.fd = fd ∧ l.offset = offset) →
    ∀ t, t ≠ tensor → s.memHandle t ≠ s.memHandle tensor
  /-- The tensor whose handle is taken over is still where it was first mapped. -/
  parent : s.last tensor = none → ∀ p, s.memConfigList (fd, offset, ctx) = some p →
    ∃ base, s.last p = some ⟨fd, offset, ctx, base⟩

/-- The calls that keep the handles right. By index, the offset has 32 bits and the descriptor at
the index is that of the chunk at the index. -/
def CallFits (s : FusedState Tensor Ctx Handle) : FusedCall Tensor Ctx Handle → Prop
  | .allocateBuffers _ _ _ | .allocateTensorFusedBuffer _ _ _ => True
  | .map tensor _ fd offset _ _ ctx _ => MapFits s tensor fd offset.toUInt64 ctx
  | .mapIndex tensor allocIdx offset ctx _ _ =>
    offset.toNat < 2 ^ 32 ∧ s.fusedFds[allocIdx]? = s.chunks[allocIdx]?.map Prod.snd ∧
      ∀ fd, s.fusedFds[allocIdx]? = some fd → MapFits s tensor fd offset ctx

/-- The states that such calls reach. -/
def FittingReachable : FusedState Tensor Ctx Handle → Prop :=
  Relation.ReflTransGen (fun s s' => ∃ c, CallValid s c ∧ CallFits s c ∧ s.call c = some s') {}

/-! ## The invariant -/

/-- What `RpcMem` and the backend have of a mapping, under a handle. -/
structure Backed (s : FusedState Tensor Ctx Handle) (h : Handle) (l : Mapping Ctx) : Prop where
  backend : s.backend h = some (l.fd, l.offset, l.ctx)
  data : ∃ d, s.memHandleToRpcMem h = some d ∧ d.fd = l.fd ∧ d.offset = l.offset ∧
    d.memPointer = l.base + l.offset

structure FusedInv (s : FusedState Tensor Ctx Handle) : Prop where
  mapped : ∀ t l, s.last t = some l → ∃ h, s.memHandle t = some h ∧ Backed s h l
  unmapped : ∀ t, s.last t = none → s.memHandle t = none
  issued : ∀ t h, s.memHandle t = some h → h ∈ s.issued
  base : ∀ t l, s.last t = some l → (l.base, l.fd) ∈ s.chunks
  fds : (s.chunks.map Prod.snd).Nodup
  buffers : s.fusedBuffers.map Prod.fst = s.chunks.map Prod.fst

omit [DecidableEq Tensor] [DecidableEq Ctx] [DecidableEq Handle] in
theorem FusedInv.init : FusedInv ({} : FusedState Tensor Ctx Handle) :=
  ⟨nofun, fun _ _ => rfl, nofun, nofun, List.nodup_nil, rfl⟩

omit [DecidableEq Tensor] [DecidableEq Ctx] [DecidableEq Handle] in
/-- Chunks with one descriptor are one. -/
theorem FusedInv.chunk_eq {s : FusedState Tensor Ctx Handle} (h : FusedInv s) {fd : Int32}
    {base base' : UInt64} (hb : (base, fd) ∈ s.chunks) (hb' : (base', fd) ∈ s.chunks) :
    base = base' := by
  have heq := List.inj_on_of_nodup_map h.fds hb hb' rfl
  exact congrArg Prod.fst heq

omit [DecidableEq Ctx] in
/-- A new handle for a tensor, where what the other tensors have is kept. -/
theorem FusedInv.register {s : FusedState Tensor Ctx Handle} (hinv : FusedInv s) {tensor : Tensor}
    {size : UInt64} {fd : Int32} {offset : UInt32} {total memPointer : UInt64} {ctx : Ctx}
    {memHandle : Handle} (hfresh : memHandle ∉ s.issued) (hchunk : (memPointer, fd) ∈ s.chunks)
    {s' : FusedState Tensor Ctx Handle} (hlast : s'.last = s.last)
    (hhandle : s'.memHandle = s.memHandle) (hissued : s'.issued = s.issued)
    (hchunks : s'.chunks = s.chunks) (hbuffers : s'.fusedBuffers = s.fusedBuffers)
    (hkeep : ∀ t l h, t ≠ tensor → s.last t = some l → s.memHandle t = some h →
      Backed s h l → Backed s' h l) :
    FusedInv ((s'.register tensor size fd offset total memPointer ctx memHandle).mark tensor
      ⟨fd, offset.toUInt64, ctx, memPointer⟩) := by
  refine ⟨fun t l hl => ?_, fun t hl => ?_, fun t h hh => ?_, fun t l hl => ?_, ?_, ?_⟩
  · obtain rfl | hne := eq_or_ne t tensor
    · rw [FusedState.mark_last_self] at hl
      obtain rfl := Option.some.inj hl
      exact ⟨memHandle, Function.update_self _ _ _, Function.update_self _ _ _, _,
        Function.update_self _ _ _, rfl, rfl, rfl⟩
    · rw [FusedState.mark_last_of_ne _ _ hne, FusedState.register_last, hlast] at hl
      obtain ⟨h, hh, hback⟩ := hinv.mapped t l hl
      have hother : h ≠ memHandle := fun heq => hfresh (heq ▸ hinv.issued t h hh)
      obtain ⟨hb, d, hd, hrest⟩ := hkeep t l h hne hl hh hback
      refine ⟨h, ?_, (Function.update_of_ne hother _ _).trans hb, d,
        (Function.update_of_ne hother _ _).trans hd, hrest⟩
      rw [FusedState.mark_memHandle, FusedState.register_memHandle_of_ne _ hne, hhandle, hh]
  · obtain rfl | hne := eq_or_ne t tensor
    · rw [FusedState.mark_last_self] at hl
      cases hl
    · rw [FusedState.mark_last_of_ne _ _ hne, FusedState.register_last, hlast] at hl
      rw [FusedState.mark_memHandle, FusedState.register_memHandle_of_ne _ hne, hhandle,
        hinv.unmapped t hl]
  · show h ∈ memHandle :: s'.issued
    rw [FusedState.mark_memHandle] at hh
    obtain rfl | hne := eq_or_ne t tensor
    · rw [FusedState.register_memHandle_self] at hh
      rw [← Option.some.inj hh]
      exact List.mem_cons_self
    · rw [FusedState.register_memHandle_of_ne _ hne, hhandle] at hh
      rw [hissued]
      exact List.mem_cons_of_mem _ (hinv.issued t h hh)
  · show (l.base, l.fd) ∈ s'.chunks
    rw [hchunks]
    obtain rfl | hne := eq_or_ne t tensor
    · rw [FusedState.mark_last_self] at hl
      obtain rfl := Option.some.inj hl
      exact hchunk
    · rw [FusedState.mark_last_of_ne _ _ hne, FusedState.register_last, hlast] at hl
      exact hinv.base t l hl
  · show (s'.chunks.map Prod.snd).Nodup
    rw [hchunks]
    exact hinv.fds
  · show s'.fusedBuffers.map Prod.fst = s'.chunks.map Prod.fst
    rw [hchunks, hbuffers]
    exact hinv.buffers

omit [DecidableEq Ctx] [DecidableEq Handle] in
/-- A tensor goes to a place under a handle that is right for it. -/
theorem FusedInv.moveTo {s : FusedState Tensor Ctx Handle} (hinv : FusedInv s) (tensor : Tensor)
    {h : Handle} {l : Mapping Ctx} (hback : Backed s h l) (hissued : h ∈ s.issued)
    (hchunk : (l.base, l.fd) ∈ s.chunks) :
    FusedInv ({ s with memHandle := Function.update s.memHandle tensor (some h) }.mark tensor l) := by
  refine ⟨fun t l' hl => ?_, fun t hl => ?_, fun t h' hh => ?_, fun t l' hl => ?_, hinv.fds,
    hinv.buffers⟩
  · obtain rfl | hne := eq_or_ne t tensor
    · rw [FusedState.mark_last_self] at hl
      obtain rfl := Option.some.inj hl
      exact ⟨h, Function.update_self _ _ _, hback.backend, hback.data⟩
    · rw [FusedState.mark_last_of_ne _ _ hne] at hl
      obtain ⟨h', hh', hback'⟩ := hinv.mapped t l' hl
      exact ⟨h', (Function.update_of_ne hne _ _).trans hh', hback'.backend, hback'.data⟩
  · obtain rfl | hne := eq_or_ne t tensor
    · rw [FusedState.mark_last_self] at hl
      cases hl
    · rw [FusedState.mark_last_of_ne _ _ hne] at hl
      exact (Function.update_of_ne hne _ _).trans (hinv.unmapped t hl)
  · have hh : Function.update s.memHandle tensor (some h) t = some h' := hh
    obtain rfl | hne := eq_or_ne t tensor
    · rw [Function.update_self] at hh
      rwa [← Option.some.inj hh]
    · rw [Function.update_of_ne hne] at hh
      exact hinv.issued t h' hh
  · obtain rfl | hne := eq_or_ne t tensor
    · rw [FusedState.mark_last_self] at hl
      rwa [← Option.some.inj hl]
    · rw [FusedState.mark_last_of_ne _ _ hne] at hl
      exact hinv.base t l' hl

/-- A mapping that fits keeps the invariant. -/
theorem FusedInv.map {s s' : FusedState Tensor Ctx Handle} (hinv : FusedInv s) {tensor : Tensor}
    {size : UInt64} {fd : Int32} {offset : UInt32} {total memPointer : UInt64} {ctx : Ctx}
    {memHandle : Handle} (hfresh : memHandle ∉ s.issued) (hchunk : (memPointer, fd) ∈ s.chunks)
    (hfits : MapFits s tensor fd offset.toUInt64 ctx)
    (hmap : s.mapFusedBufferOffset tensor size fd offset total memPointer ctx memHandle = some s') :
    FusedInv (s'.mark tensor ⟨fd, offset.toUInt64, ctx, memPointer⟩) := by
  unfold FusedState.mapFusedBufferOffset at hmap
  cases hl : s.last tensor with
  | some l =>
    obtain ⟨cur, hcur, hback, d, hd, hdfd, hdoff, hdptr⟩ := hinv.mapped tensor l hl
    rw [hcur] at hmap
    dsimp only at hmap
    rw [hd] at hmap
    dsimp only at hmap
    rw [hdfd, hdoff] at hmap
    by_cases hstay : l.fd = fd ∧ l.offset = offset.toUInt64
    · -- the tensor stays where it is
      rw [if_pos hstay] at hmap
      obtain rfl := Option.some.inj hmap
      have hbase := hinv.base tensor l hl
      have hctx := hfits.stays l hl hstay.1 hstay.2
      rw [hstay.1] at hbase
      have hptr := hinv.chunk_eq hbase hchunk
      obtain ⟨lfd, loff, lctx, lbase⟩ := l
      obtain ⟨rfl, rfl⟩ := hstay
      obtain rfl : lctx = ctx := hctx
      obtain rfl : lbase = memPointer := hptr
      have hmove := hinv.moveTo tensor (h := cur) ⟨hback, d, hd, hdfd, hdoff, hdptr⟩
        (hinv.issued tensor cur hcur) hchunk
      rwa [← hcur, Function.update_eq_self] at hmove
    · -- the old handle goes, and no other tensor has it
      rw [if_neg hstay] at hmap
      obtain rfl := Option.some.inj hmap
      refine hinv.register hfresh hchunk rfl rfl rfl rfl rfl fun t l' h hne _ hh hback' => ?_
      have hother : h ≠ cur := by
        rintro rfl
        exact hfits.alone l hl hstay t hne (hh.trans hcur.symm)
      obtain ⟨hb, d', hd', hrest⟩ := hback'
      exact ⟨(Function.update_of_ne hother _ _).trans hb, d',
        (Function.update_of_ne hother _ _).trans hd', hrest⟩
  | none =>
    rw [hinv.unmapped tensor hl] at hmap
    dsimp only at hmap
    cases hconf : s.memConfigList (fd, offset.toUInt64, ctx) with
    | some p =>
      rw [hconf] at hmap
      obtain rfl := Option.some.inj hmap
      obtain ⟨base, hp⟩ := hfits.parent hl p hconf
      obtain ⟨h, hh, hback⟩ := hinv.mapped p _ hp
      obtain rfl : base = memPointer := hinv.chunk_eq (hinv.base p _ hp) hchunk
      rw [hh]
      exact hinv.moveTo _ hback (hinv.issued p h hh) hchunk
    | none =>
      rw [hconf] at hmap
      obtain rfl := Option.some.inj hmap
      exact hinv.register hfresh hchunk rfl rfl rfl rfl rfl fun _ _ _ _ _ _ hback =>
        ⟨hback.backend, hback.data⟩

omit [DecidableEq Tensor] [DecidableEq Ctx] [DecidableEq Handle] in
/-- A chunk is allocated. -/
theorem FusedInv.allocate {s s' : FusedState Tensor Ctx Handle} (hinv : FusedInv s)
    {memPointer bufferSize : UInt64} {fd : Int32} (hfd : fd ∉ s.chunks.map Prod.snd)
    (hlast : s'.last = s.last) (hhandle : s'.memHandle = s.memHandle)
    (hissued : s'.issued = s.issued) (hbackend : s'.backend = s.backend)
    (hdata : s'.memHandleToRpcMem = s.memHandleToRpcMem)
    (hchunks : s'.chunks = s.chunks ++ [(memPointer, fd)])
    (hbuffers : s'.fusedBuffers = s.fusedBuffers ++ [(memPointer, bufferSize)]) :
    FusedInv s' := by
  refine ⟨fun t l hl => ?_, fun t hl => ?_, fun t h hh => ?_, fun t l hl => ?_, ?_, ?_⟩
  · rw [hlast] at hl
    obtain ⟨h, hh, hb, hd⟩ := hinv.mapped t l hl
    exact ⟨h, hhandle ▸ hh, hbackend ▸ hb, hdata ▸ hd⟩
  · rw [hlast] at hl
    rw [hhandle, hinv.unmapped t hl]
  · rw [hhandle] at hh
    exact hissued ▸ hinv.issued t h hh
  · rw [hlast] at hl
    rw [hchunks]
    exact List.mem_append_left _ (hinv.base t l hl)
  · rw [hchunks, List.map_append, List.nodup_append]
    refine ⟨hinv.fds, List.nodup_singleton _, ?_⟩
    rintro a ha b hb rfl
    rw [List.map_singleton, List.mem_singleton] at hb
    rw [hb] at ha
    exact hfd ha
  · rw [hchunks, hbuffers, List.map_append, List.map_append, hinv.buffers]
    rfl

/-- A call that fits keeps the invariant. -/
theorem FusedInv.call {s s' : FusedState Tensor Ctx Handle} {c : FusedCall Tensor Ctx Handle}
    (hinv : FusedInv s) (hvalid : CallValid s c) (hfits : CallFits s c)
    (hcall : s.call c = some s') : FusedInv s' := by
  cases c with
  | allocateBuffers memPointer bufferSize fd =>
    obtain rfl := Option.some.inj hcall
    exact hinv.allocate hvalid rfl rfl rfl rfl rfl rfl rfl
  | allocateTensorFusedBuffer memPointer bufferSize fd =>
    obtain rfl := Option.some.inj hcall
    exact hinv.allocate hvalid rfl rfl rfl rfl rfl rfl rfl
  | map tensor size fd offset total memPointer ctx memHandle =>
    obtain ⟨s₁, hmap, rfl⟩ := Option.map_eq_some_iff.mp hcall
    exact hinv.map hvalid.1 hvalid.2 hfits hmap
  | mapIndex tensor allocIdx offset ctx size memHandle =>
    obtain ⟨hlt, hfds, hmapfits⟩ := hfits
    have hoffset : offset.toUInt32.toUInt64 = offset := by
      rw [← UInt64.toNat_inj, UInt32.toNat_toUInt64, UInt64.toNat_toUInt32]
      exact Nat.mod_eq_of_lt hlt
    unfold FusedState.call at hcall
    dsimp only at hcall
    split at hcall
    · rename_i fd memPointer total chunk hfd hbuf hchunk
      obtain ⟨s₁, hmap, rfl⟩ := Option.map_eq_some_iff.mp hcall
      rw [hchunk, Option.map_some, hfd] at hfds
      obtain rfl := Option.some.inj hfds
      -- the chunks stand beside the buffers, index by index
      have hptr : memPointer = chunk.1 := by
        have hmaps := congrArg (·[allocIdx]?) hinv.buffers
        rw [List.getElem?_map, List.getElem?_map, hbuf, hchunk] at hmaps
        exact Option.some.inj hmaps
      subst hptr
      have hres := hinv.map hvalid (List.mem_of_getElem? hchunk)
        (hoffset.symm ▸ hmapfits chunk.2 hfd) hmap
      rwa [hoffset] at hres
    · cases hcall

theorem FittingReachable.inv {s : FusedState Tensor Ctx Handle} (h : FittingReachable s) :
    FusedInv s := by
  induction h with
  | refl => exact FusedInv.init
  | tail _ hstep ih =>
    obtain ⟨c, hvalid, hfits, hcall⟩ := hstep
    exact ih.call hvalid hfits hcall

/-- The handles are right in every run of calls that fit. -/
theorem FittingReachable.handlesRight {s : FusedState Tensor Ctx Handle}
    (h : FittingReachable s) : HandlesRight s := by
  have hinv := h.inv
  refine ⟨fun t l hl => ?_, fun t t' l l' hl hl' hsame => ?_, fun t l hl => ?_⟩
  · obtain ⟨m, hm, hback⟩ := hinv.mapped t l hl
    exact ⟨m, hm, hback.backend⟩
  · obtain ⟨m, hm, hback⟩ := hinv.mapped t l hl
    obtain ⟨m', hm', hback'⟩ := hinv.mapped t' l' hl'
    rw [hm, hm'] at hsame
    obtain rfl := Option.some.inj hsame
    have heq := Option.some.inj (hback.backend.symm.trans hback'.backend)
    exact ⟨congrArg Prod.fst heq, congrArg (·.2.1) heq, congrArg (·.2.2) heq⟩
  · obtain ⟨m, hm, -, d, hd, -, -, hptr⟩ := hinv.mapped t l hl
    unfold FusedState.getBuffer
    rw [hm]
    dsimp only
    rw [hd, Option.map_some, hptr]

/-- Two tensors at one offset of a chunk. -/
theorem handlesRight_shared : ∃ s : FusedState ℕ ℕ ℕ, FittingReachable s ∧
    s.memHandle 0 = some 7 ∧ s.memHandle 1 = some 7 ∧ HandlesRight s := by
  have h : FittingReachable ({} : FusedState ℕ ℕ ℕ) := .refl
  have h := h.tail ⟨.allocateBuffers 4096 64 3, by decide, trivial, rfl⟩
  have h := h.tail ⟨.map 0 8 3 0 64 4096 0 7, by decide, ⟨nofun, nofun, nofun⟩, rfl⟩
  have h := h.tail ⟨.map 1 8 3 0 64 4096 0 8, by decide, ⟨nofun, nofun, fun _ p hp =>
    ⟨4096, Option.some.inj hp ▸ rfl⟩⟩, rfl⟩
  exact ⟨_, h, rfl, rfl, FittingReachable.handlesRight h⟩

/-- A tensor that is mapped first takes over the handle of one that has moved on. -/
theorem map_moved_parent : ¬ ∀ s : FusedState ℕ ℕ ℕ, FusedReachable s → HandlesRight s := by
  intro hall
  have h : FusedReachable ({} : FusedState ℕ ℕ ℕ) := .refl
  have h := h.tail ⟨.allocateBuffers 4096 64 3, by decide, rfl⟩
  have h := h.tail ⟨.map 0 8 3 0 64 4096 0 7, by decide, rfl⟩
  have h := h.tail ⟨.map 0 8 3 8 64 4096 0 9, by decide, rfl⟩
  have h := h.tail ⟨.map 1 8 3 0 64 4096 0 11, by decide, rfl⟩
  have hbuf := (hall _ h).buffer 1 ⟨3, 0, 0, 4096⟩ (by rfl)
  revert hbuf
  decide

end Geniex
