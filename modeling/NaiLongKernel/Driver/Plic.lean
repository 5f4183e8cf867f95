import NaiLongKernel.Foundation.Outcome
import NaiLongKernel.Foundation.Registers

/-!
# The interrupt controller PLIC

The registers are words of memory at offsets from a base address: a priority for every source,
and for every context an enable bit of every source, a threshold and a claim register. A name
for each register, and the offset that belongs to it, turn the address arithmetic of the driver
into updates of a map from names.
-/
namespace NaiLongKernel.Driver

open Foundation

/-- The memory, by the addresses of its words. -/
abbrev PlicMemory := BitVec 64 → BitVec 32

structure Plic where
  baseAddr : BitVec 64
  ndev : BitVec 64
  contextCount : BitVec 64
deriving DecidableEq, Repr

namespace Plic

def kSourcePriorityOffset : BitVec 64 := 0x000000
def kPendingBitsOffset : BitVec 64 := 0x001000
def kEnableBitsOffset : BitVec 64 := 0x002000
def kContextOffset : BitVec 64 := 0x200000
def kContextSize : BitVec 64 := 0x1000
def kPriorityThresholdOffset : BitVec 64 := 0x0
def kClaimCompleteOffset : BitVec 64 := 0x4
def kEnableSize : BitVec 64 := 0x80

/-- The mode is always 1. -/
def getContextId (hartId : BitVec 32) : BitVec 32 := hartId * 2 + 1

def sourcePriority (plic : Plic) (sourceId : BitVec 32) : BitVec 64 :=
  plic.baseAddr + kSourcePriorityOffset + sourceId.setWidth 64 * 4

def priorityThreshold (plic : Plic) (contextId : BitVec 32) : BitVec 64 :=
  plic.baseAddr + kContextOffset + contextId.setWidth 64 * kContextSize + kPriorityThresholdOffset

def claimComplete (plic : Plic) (contextId : BitVec 32) : BitVec 64 :=
  plic.baseAddr + kContextOffset + contextId.setWidth 64 * kContextSize + kClaimCompleteOffset

/-- The address of the word of a source in the enable bits of a context. -/
def enableWord (plic : Plic) (contextId sourceId : BitVec 32) : BitVec 64 :=
  let wordIndex := sourceId / 32
  plic.baseAddr + kEnableBitsOffset + contextId.setWidth 64 * kEnableSize +
    (wordIndex * 4).setWidth 64

def getEnableBit (plic : Plic) (mem : PlicMemory) (contextId sourceId : BitVec 32) : Bool :=
  let bitIndex := sourceId % 32
  mem (plic.enableWord contextId sourceId) >>> bitIndex &&& 1 ≠ 0

def setEnableBit (plic : Plic) (mem : PlicMemory) (contextId sourceId : BitVec 32) (value : Bool) :
    PlicMemory :=
  let bitIndex := sourceId % 32
  let wordAddr := plic.enableWord contextId sourceId
  if value then
    Function.update mem wordAddr (mem wordAddr ||| 1#32 <<< bitIndex)
  else
    Function.update mem wordAddr (mem wordAddr &&& ~~~(1#32 <<< bitIndex))

/-- The address of the word of a source in the pending bits. -/
def pendingWord (plic : Plic) (sourceId : BitVec 32) : BitVec 64 :=
  let wordIndex := sourceId / 32
  plic.baseAddr + kPendingBitsOffset + (wordIndex * 4).setWidth 64

def getPendingBit (plic : Plic) (mem : PlicMemory) (sourceId : BitVec 32) : Bool :=
  let bitIndex := sourceId % 32
  mem (plic.pendingWord sourceId) >>> bitIndex &&& 1 ≠ 0

def set (plic : Plic) (mem : PlicMemory) (hartId sourceId priority : BitVec 32) (enable : Bool) :
    PlicMemory :=
  let mem := Function.update mem (plic.sourcePriority sourceId) priority
  let contextId := getContextId hartId
  plic.setEnableBit mem contextId sourceId enable

def get (plic : Plic) (mem : PlicMemory) (hartId sourceId : BitVec 32) : BitVec 32 × Bool × Bool :=
  let priority := mem (plic.sourcePriority sourceId)
  let contextId := getContextId hartId
  (priority, plic.getEnableBit mem contextId sourceId, plic.getPendingBit mem sourceId)

/-- The loops of the constructor. A counter of type `size_t` becomes an argument of type
`uint32_t`. -/
def construct (plic : Plic) (mem : PlicMemory) : PlicMemory :=
  let sources := List.range (plic.ndev.toNat + 1)
  let mem := sources.foldl (fun mem sourceId =>
    Function.update mem (plic.sourcePriority (BitVec.ofNat 32 sourceId)) 0) mem
  (List.range plic.contextCount.toNat).foldl (fun mem contextId =>
    let mem := Function.update mem (plic.priorityThreshold (BitVec.ofNat 32 contextId)) 0
    sources.foldl (fun mem sourceId =>
      plic.setEnableBit mem (BitVec.ofNat 32 contextId) (BitVec.ofNat 32 sourceId) false) mem) mem

end Plic

/-! ## The registers -/

/-- The registers by name: numbers of sources, contexts and words. -/
inductive PlicReg where
  | priority (source : ℕ)
  | pending (word : ℕ)
  | enable (context word : ℕ)
  | threshold (context : ℕ)
  | claim (context : ℕ)
deriving DecidableEq, Repr

namespace PlicReg

def offset : PlicReg → ℕ
  | priority source => 4 * source
  | pending word => 0x1000 + 4 * word
  | enable context word => 0x2000 + 0x80 * context + 4 * word
  | threshold context => 0x200000 + 0x1000 * context
  | claim context => 0x200000 + 0x1000 * context + 4

/-- 1024 sources and 15872 contexts. -/
def Valid : PlicReg → Prop
  | priority source => source < 1024
  | pending word => word < 32
  | enable context word => context < 15872 ∧ word < 32
  | threshold context => context < 15872
  | claim context => context < 15872

/-- Whether the register holds enable bits. -/
def isEnable : PlicReg → Bool
  | enable _ _ => true
  | _ => false

theorem ne_enable {r : PlicReg} (h : r.isEnable = false) (context word : ℕ) :
    r ≠ enable context word := by
  rintro rfl
  cases h

theorem offset_lt {r : PlicReg} (h : r.Valid) : r.offset < 0x4000000 := by
  cases r <;> simp only [Valid, offset] at * <;> omega

theorem offset_injective {r r' : PlicReg} (h : r.Valid) (h' : r'.Valid)
    (he : r.offset = r'.offset) : r = r' := by
  cases r <;> cases r' <;> simp only [Valid, offset, reduceCtorEq, priority.injEq, pending.injEq,
    enable.injEq, threshold.injEq, claim.injEq] at * <;> omega

end PlicReg

namespace Plic

variable (plic : Plic) {mem : PlicMemory} {contextId sourceId context source : BitVec 32}

/-- The address of a register. -/
def addr (r : PlicReg) : BitVec 64 := plic.baseAddr + BitVec.ofNat 64 r.offset

theorem addr_injective {r r' : PlicReg} (h : r.Valid) (h' : r'.Valid)
    (he : plic.addr r = plic.addr r') : r = r' := by
  have hlt := PlicReg.offset_lt h
  have hlt' := PlicReg.offset_lt h'
  have hoff := congrArg BitVec.toNat (add_left_cancel he)
  rw [BitVec.toNat_ofNat, BitVec.toNat_ofNat, Nat.mod_eq_of_lt (by omega),
    Nat.mod_eq_of_lt (by omega)] at hoff
  exact PlicReg.offset_injective h h' hoff

/-! What the driver computes are the addresses of registers. -/

theorem sourcePriority_eq : plic.sourcePriority sourceId = plic.addr (.priority sourceId.toNat) := by
  have hoff : kSourcePriorityOffset + sourceId.setWidth 64 * 4 =
      BitVec.ofNat 64 (PlicReg.priority sourceId.toNat).offset := by
    simp only [kSourcePriorityOffset, PlicReg.offset]
    bv_omega
  rw [sourcePriority, add_assoc, hoff, addr]

theorem toNat_wordIndex (sourceId : BitVec 32) :
    (sourceId / 32 * 4).toNat = 4 * (sourceId.toNat / 32) := by
  have hthirtytwo : (32 : BitVec 32).toNat = 32 := rfl
  have hfour : (4 : BitVec 32).toNat = 4 := rfl
  rw [BitVec.toNat_mul, BitVec.toNat_udiv, hthirtytwo, hfour]
  omega

theorem pendingWord_eq : plic.pendingWord sourceId = plic.addr (.pending (sourceId.toNat / 32)) := by
  have hoff : kPendingBitsOffset + (sourceId / 32 * 4).setWidth 64 =
      BitVec.ofNat 64 (PlicReg.pending (sourceId.toNat / 32)).offset := by
    have hword := toNat_wordIndex sourceId
    generalize sourceId / 32 * 4 = word at hword ⊢
    simp only [kPendingBitsOffset, PlicReg.offset]
    bv_omega
  rw [pendingWord, add_assoc, hoff, addr]

theorem enableWord_eq : plic.enableWord contextId sourceId =
    plic.addr (.enable contextId.toNat (sourceId.toNat / 32)) := by
  have hoff : kEnableBitsOffset + contextId.setWidth 64 * kEnableSize +
      (sourceId / 32 * 4).setWidth 64 =
        BitVec.ofNat 64 (PlicReg.enable contextId.toNat (sourceId.toNat / 32)).offset := by
    have hword := toNat_wordIndex sourceId
    generalize sourceId / 32 * 4 = word at hword ⊢
    simp only [kEnableBitsOffset, kEnableSize, PlicReg.offset]
    bv_omega
  rw [enableWord, addr, ← hoff]
  simp only [add_assoc]

theorem priorityThreshold_eq :
    plic.priorityThreshold contextId = plic.addr (.threshold contextId.toNat) := by
  have hoff : kContextOffset + contextId.setWidth 64 * kContextSize + kPriorityThresholdOffset =
      BitVec.ofNat 64 (PlicReg.threshold contextId.toNat).offset := by
    simp only [kContextOffset, kContextSize, kPriorityThresholdOffset, PlicReg.offset]
    bv_omega
  rw [priorityThreshold, addr, ← hoff]
  simp only [add_assoc]

theorem claimComplete_eq : plic.claimComplete contextId = plic.addr (.claim contextId.toNat) := by
  have hoff : kContextOffset + contextId.setWidth 64 * kContextSize + kClaimCompleteOffset =
      BitVec.ofNat 64 (PlicReg.claim contextId.toNat).offset := by
    simp only [kContextOffset, kContextSize, kClaimCompleteOffset, PlicReg.offset]
    bv_omega
  rw [claimComplete, addr, ← hoff]
  simp only [add_assoc]

/-! ## Single writes -/

theorem shiftRight_and_one_ne_zero {x i : BitVec 32} :
    decide (x >>> i &&& 1 ≠ 0) = x.getLsbD i.toNat := by
  have hand : x >>> i &&& 1 = (BitVec.ofBool (x.getLsbD i.toNat)).setWidth 32 := by
    have hbit := BitVec.and_one_eq_setWidth_ofBool_getLsbD (x := x >>> i)
    simpa using hbit
  rw [hand]
  cases x.getLsbD i.toNat <;> rfl

theorem update_addr_of_ne {r r' : PlicReg} {word : BitVec 32} (h : r.Valid) (h' : r'.Valid)
    (hne : r' ≠ r) :
    Function.update mem (plic.addr r) word (plic.addr r') = mem (plic.addr r') :=
  Function.update_of_ne (fun he => hne (plic.addr_injective h' h he)) _ _

theorem getEnableBit_eq : plic.getEnableBit mem contextId sourceId =
    (mem (plic.addr (.enable contextId.toNat (sourceId.toNat / 32)))).getLsbD
      (sourceId.toNat % 32) := by
  rw [getEnableBit, shiftRight_and_one_ne_zero, enableWord_eq]
  rfl

theorem setEnableBit_eq (value : Bool) : plic.setEnableBit mem contextId sourceId value =
    Function.update mem (plic.addr (.enable contextId.toNat (sourceId.toNat / 32)))
      (if value then
        mem (plic.addr (.enable contextId.toNat (sourceId.toNat / 32))) |||
          1#32 <<< (sourceId.toNat % 32)
      else
        mem (plic.addr (.enable contextId.toNat (sourceId.toNat / 32))) &&&
          ~~~(1#32 <<< (sourceId.toNat % 32))) := by
  rw [setEnableBit, enableWord_eq]
  cases value <;> rfl

theorem getEnableBit_setEnableBit (value : Bool) (hc : contextId < 15872) (hs : sourceId < 1024)
    (hc' : context < 15872) (hs' : source < 1024) :
    plic.getEnableBit (plic.setEnableBit mem contextId sourceId value) context source =
      if context = contextId ∧ source = sourceId then value
      else plic.getEnableBit mem context source := by
  have hvalid : (PlicReg.enable contextId.toNat (sourceId.toNat / 32)).Valid :=
    ⟨hc, by bv_omega⟩
  have hvalid' : (PlicReg.enable context.toNat (source.toNat / 32)).Valid :=
    ⟨hc', by bv_omega⟩
  have hmod : sourceId.toNat % 32 < 32 := Nat.mod_lt _ (by omega)
  rw [getEnableBit_eq, getEnableBit_eq, setEnableBit_eq]
  by_cases hword : context = contextId ∧ source.toNat / 32 = sourceId.toNat / 32
  · obtain ⟨rfl, hdiv⟩ := hword
    rw [hdiv, Function.update_self]
    by_cases hsource : source = sourceId
    · subst hsource
      cases value with
      | true => simp [getLsbD_setBit hmod]
      | false => simp [getLsbD_clearBit hmod]
    · have hne := mod_ne_of_div_eq (fun he => hsource (BitVec.eq_of_toNat_eq he)) hdiv
      cases value with
      | true => simp [getLsbD_setBit hmod, hne, hsource]
      | false => simp [getLsbD_clearBit hmod, hne, hsource]
  · rw [plic.update_addr_of_ne hvalid hvalid', if_neg]
    · rintro ⟨rfl, rfl⟩
      exact hword ⟨rfl, rfl⟩
    · simp only [ne_eq, PlicReg.enable.injEq, BitVec.toNat_inj]
      exact hword

theorem setEnableBit_addr {r : PlicReg} (value : Bool) (hc : contextId < 15872)
    (hs : sourceId < 1024) (h : r.Valid) (hr : r.isEnable = false) :
    plic.setEnableBit mem contextId sourceId value (plic.addr r) = mem (plic.addr r) := by
  rw [setEnableBit_eq]
  apply plic.update_addr_of_ne _ h (PlicReg.ne_enable hr _ _)
  exact ⟨hc, by bv_omega⟩

theorem getPendingBit_congr {mem' : PlicMemory}
    (h : mem' (plic.addr (.pending (sourceId.toNat / 32))) =
      mem (plic.addr (.pending (sourceId.toNat / 32)))) :
    plic.getPendingBit mem' sourceId = plic.getPendingBit mem sourceId := by
  rw [getPendingBit, getPendingBit, pendingWord_eq, h]

theorem getEnableBit_update_addr {r : PlicReg} {word : BitVec 32} (h : r.Valid)
    (hr : r.isEnable = false) (hc : contextId < 15872) (hs : sourceId < 1024) :
    plic.getEnableBit (Function.update mem (plic.addr r) word) contextId sourceId =
      plic.getEnableBit mem contextId sourceId := by
  rw [getEnableBit_eq, getEnableBit_eq, plic.update_addr_of_ne h _ (PlicReg.ne_enable hr _ _).symm]
  exact ⟨hc, by bv_omega⟩

end Plic

/-! ## Set -/

/-- A call of `Set`. -/
structure PlicSet where
  hartId : BitVec 32
  sourceId : BitVec 32
  priority : BitVec 32
  enable : Bool
deriving DecidableEq, Repr

namespace Plic

variable (plic : Plic) {mem : PlicMemory} {op : PlicSet}

def apply (mem : PlicMemory) (op : PlicSet) : PlicMemory :=
  plic.set mem op.hartId op.sourceId op.priority op.enable

/-- The source exists, and so does the context of the hart. -/
def Has (hartId sourceId : BitVec 32) : Prop :=
  sourceId.toNat ≤ plic.ndev.toNat ∧ hartId.toNat * 2 + 1 < plic.contextCount.toNat

instance (hartId sourceId : BitVec 32) : Decidable (plic.Has hartId sourceId) :=
  inferInstanceAs (Decidable (_ ∧ _))

/-- No more sources and contexts than the register block has room for. -/
def Fits : Prop := plic.ndev ≤ 1023 ∧ plic.contextCount ≤ 15872

/-- What a call of `Set` leaves: every other enable bit and priority, and all pending bits,
thresholds and claim registers. -/
structure Leaves (mem mem' : PlicMemory) (op : PlicSet) : Prop where
  enabled : ∀ contextId sourceId, contextId < 15872 → sourceId < 1024 →
    ¬(contextId = getContextId op.hartId ∧ sourceId = op.sourceId) →
    plic.getEnableBit mem' contextId sourceId = plic.getEnableBit mem contextId sourceId
  priority : ∀ sourceId, sourceId < 1024 → sourceId ≠ op.sourceId →
    mem' (plic.sourcePriority sourceId) = mem (plic.sourcePriority sourceId)
  pending : ∀ sourceId, sourceId < 1024 →
    plic.getPendingBit mem' sourceId = plic.getPendingBit mem sourceId
  threshold : ∀ contextId, contextId < 15872 →
    mem' (plic.priorityThreshold contextId) = mem (plic.priorityThreshold contextId)
  claim : ∀ contextId, contextId < 15872 →
    mem' (plic.claimComplete contextId) = mem (plic.claimComplete contextId)

variable {plic} {hartId sourceId : BitVec 32}

theorem Has.source_lt (h : plic.Has hartId sourceId) (hfits : plic.Fits) : sourceId < 1024 := by
  have hndev : plic.ndev.toNat ≤ 1023 := hfits.1
  have hle := h.1
  bv_omega

theorem Has.toNat_context (h : plic.Has hartId sourceId) (hfits : plic.Fits) :
    (getContextId hartId).toNat = hartId.toNat * 2 + 1 := by
  have hcount : plic.contextCount.toNat ≤ 15872 := hfits.2
  have hlt := h.2
  rw [getContextId]
  bv_omega

theorem Has.context_lt (h : plic.Has hartId sourceId) (hfits : plic.Fits) :
    getContextId hartId < 15872 := by
  have hcount : plic.contextCount.toNat ≤ 15872 := hfits.2
  have hcontext := h.toNat_context hfits
  have hlt := h.2
  bv_omega

theorem Has.valid_priority (h : plic.Has hartId sourceId) (hfits : plic.Fits) :
    (PlicReg.priority sourceId.toNat).Valid :=
  h.source_lt hfits

theorem getEnableBit_apply (hop : plic.Has op.hartId op.sourceId) (hfits : plic.Fits)
    {contextId : BitVec 32} (hc : contextId < 15872) (hs : sourceId < 1024) :
    plic.getEnableBit (plic.apply mem op) contextId sourceId =
      if contextId = getContextId op.hartId ∧ sourceId = op.sourceId then op.enable
      else plic.getEnableBit mem contextId sourceId := by
  rw [apply, set, plic.getEnableBit_setEnableBit _ (hop.context_lt hfits) (hop.source_lt hfits) hc
    hs, sourcePriority_eq, plic.getEnableBit_update_addr (hop.valid_priority hfits) rfl hc hs]

theorem apply_addr (hop : plic.Has op.hartId op.sourceId) (hfits : plic.Fits) {r : PlicReg}
    (h : r.Valid) (hr : r.isEnable = false) :
    plic.apply mem op (plic.addr r) =
      if r = .priority op.sourceId.toNat then op.priority else mem (plic.addr r) := by
  rw [apply, set, plic.setEnableBit_addr _ (hop.context_lt hfits) (hop.source_lt hfits) h hr,
    sourcePriority_eq]
  by_cases he : r = .priority op.sourceId.toNat
  · rw [he, Function.update_self, if_pos rfl]
  · rw [plic.update_addr_of_ne (hop.valid_priority hfits) h he, if_neg he]

theorem priority_apply (hop : plic.Has op.hartId op.sourceId) (hfits : plic.Fits)
    (hs : sourceId < 1024) :
    plic.apply mem op (plic.sourcePriority sourceId) =
      if sourceId = op.sourceId then op.priority else mem (plic.sourcePriority sourceId) := by
  have hvalid : (PlicReg.priority sourceId.toNat).Valid := hs
  rw [sourcePriority_eq, apply_addr hop hfits hvalid rfl]
  simp only [PlicReg.priority.injEq, BitVec.toNat_inj]

theorem pending_apply (hop : plic.Has op.hartId op.sourceId) (hfits : plic.Fits)
    (hs : sourceId < 1024) :
    plic.getPendingBit (plic.apply mem op) sourceId = plic.getPendingBit mem sourceId := by
  have hword : sourceId.toNat / 32 < 32 := by bv_omega
  have hvalid : (PlicReg.pending (sourceId.toNat / 32)).Valid := hword
  apply plic.getPendingBit_congr
  rw [apply_addr hop hfits hvalid rfl, if_neg nofun]

theorem leaves_apply (hop : plic.Has op.hartId op.sourceId) (hfits : plic.Fits) :
    plic.Leaves mem (plic.apply mem op) op where
  enabled contextId sourceId hc hs hne := by
    rw [getEnableBit_apply hop hfits hc hs, if_neg hne]
  priority sourceId hs hne := by
    rw [priority_apply hop hfits hs, if_neg hne]
  pending sourceId hs := pending_apply hop hfits hs
  threshold contextId hc := by
    have hvalid : (PlicReg.threshold contextId.toNat).Valid := hc
    rw [priorityThreshold_eq, apply_addr hop hfits hvalid rfl, if_neg nofun]
  claim contextId hc := by
    have hvalid : (PlicReg.claim contextId.toNat).Valid := hc
    rw [claimComplete_eq, apply_addr hop hfits hvalid rfl, if_neg nofun]

/-! ## Construction -/

/-- What the constructor has done after some of its contexts: no priority, no enable bit of
these contexts, and all pending bits as before. -/
structure Cleared (plic : Plic) (mem₀ mem : PlicMemory) (contexts : ℕ) : Prop where
  priority : ∀ s ≤ plic.ndev.toNat, mem (plic.addr (.priority s)) = 0
  enabled : ∀ contextId sourceId : BitVec 32, contextId.toNat < contexts →
    sourceId.toNat ≤ plic.ndev.toNat → plic.getEnableBit mem contextId sourceId = false
  pending : ∀ w < 32, mem (plic.addr (.pending w)) = mem₀ (plic.addr (.pending w))

theorem Cleared.setThreshold {mem₀ : PlicMemory} {contexts : ℕ} {contextId word : BitVec 32}
    (h : plic.Cleared mem₀ mem contexts) (hfits : plic.Fits) (hcontexts : contexts ≤ 15872)
    (hc : contextId < 15872) :
    plic.Cleared mem₀ (Function.update mem (plic.priorityThreshold contextId) word) contexts := by
  have hndev : plic.ndev.toNat ≤ 1023 := hfits.1
  have hvalid : (PlicReg.threshold contextId.toNat).Valid := hc
  rw [priorityThreshold_eq]
  refine ⟨fun s hs => ?_, fun c s hlt hs => ?_, fun w hw => ?_⟩
  · have hs' : (PlicReg.priority s).Valid := Nat.lt_of_le_of_lt (hs.trans hndev) (by decide)
    rw [plic.update_addr_of_ne hvalid hs' nofun]
    exact h.priority s hs
  · rw [plic.getEnableBit_update_addr hvalid rfl (by bv_omega) (by bv_omega)]
    exact h.enabled c s hlt hs
  · have hw' : (PlicReg.pending w).Valid := hw
    rw [plic.update_addr_of_ne hvalid hw' nofun]
    exact h.pending w hw

theorem Cleared.clearEnableBit {mem₀ : PlicMemory} {contexts : ℕ} {contextId : BitVec 32}
    (h : plic.Cleared mem₀ mem contexts) (hfits : plic.Fits) (hcontexts : contexts ≤ 15872)
    (hc : contextId < 15872) (hs : sourceId < 1024) :
    plic.Cleared mem₀ (plic.setEnableBit mem contextId sourceId false) contexts := by
  have hndev : plic.ndev.toNat ≤ 1023 := hfits.1
  refine ⟨fun s hs' => ?_, fun c s hlt hs' => ?_, fun w hw => ?_⟩
  · have hvalid : (PlicReg.priority s).Valid := Nat.lt_of_le_of_lt (hs'.trans hndev) (by decide)
    rw [plic.setEnableBit_addr false hc hs hvalid rfl]
    exact h.priority s hs'
  · rw [plic.getEnableBit_setEnableBit false hc hs (by bv_omega) (by bv_omega)]
    split
    · rfl
    · exact h.enabled c s hlt hs'
  · have hvalid : (PlicReg.pending w).Valid := hw
    rw [plic.setEnableBit_addr false hc hs hvalid rfl]
    exact h.pending w hw

theorem cleared_priorities (hfits : plic.Fits) (mem : PlicMemory) :
    plic.Cleared mem ((List.range (plic.ndev.toNat + 1)).foldl (fun mem sourceId =>
      Function.update mem (plic.sourcePriority (BitVec.ofNat 32 sourceId)) 0) mem) 0 := by
  have hndev : plic.ndev.toNat ≤ 1023 := hfits.1
  have hloop := foldl_range_induction (s := mem) (n := plic.ndev.toNat + 1)
    (f := fun mem sourceId =>
      Function.update mem (plic.sourcePriority (BitVec.ofNat 32 sourceId)) 0)
    (I := fun k mem' => (∀ s < k, mem' (plic.addr (.priority s)) = 0) ∧
      ∀ w < 32, mem' (plic.addr (.pending w)) = mem (plic.addr (.pending w)))
    ⟨by simp, by simp⟩ ?_
  · exact ⟨fun s hs => hloop.1 s (by omega), by simp, hloop.2⟩
  · intro k hk mem' ⟨hzero, hpending⟩
    have hk32 : (BitVec.ofNat 32 k).toNat = k := by
      rw [BitVec.toNat_ofNat]
      omega
    have hvalid : ∀ s ≤ k, (PlicReg.priority s).Valid := by
      intro s hs
      exact Nat.lt_of_le_of_lt hs (by omega)
    rw [sourcePriority_eq, hk32]
    refine ⟨fun s hs => ?_, fun w hw => ?_⟩
    · by_cases he : s = k
      · rw [he, Function.update_self]
      · rw [plic.update_addr_of_ne (hvalid k le_rfl) (hvalid s (by omega)) (by simpa using he)]
        exact hzero s (by omega)
    · have hw' : (PlicReg.pending w).Valid := hw
      rw [plic.update_addr_of_ne (hvalid k le_rfl) hw' nofun]
      exact hpending w hw

theorem Cleared.context {mem₀ : PlicMemory} {k : ℕ} (h : plic.Cleared mem₀ mem k)
    (hfits : plic.Fits) (hk : k < plic.contextCount.toNat) :
    plic.Cleared mem₀ ((List.range (plic.ndev.toNat + 1)).foldl (fun mem sourceId =>
      plic.setEnableBit mem (BitVec.ofNat 32 k) (BitVec.ofNat 32 sourceId) false)
        (Function.update mem (plic.priorityThreshold (BitVec.ofNat 32 k)) 0)) (k + 1) := by
  have hndev : plic.ndev.toNat ≤ 1023 := hfits.1
  have hcount : plic.contextCount.toNat ≤ 15872 := hfits.2
  have hk32 : (BitVec.ofNat 32 k).toNat = k := by
    rw [BitVec.toNat_ofNat]
    omega
  have hc : BitVec.ofNat 32 k < 15872 := by bv_omega
  have hloop := foldl_range_induction (n := plic.ndev.toNat + 1)
    (s := Function.update mem (plic.priorityThreshold (BitVec.ofNat 32 k)) 0)
    (f := fun mem sourceId =>
      plic.setEnableBit mem (BitVec.ofNat 32 k) (BitVec.ofNat 32 sourceId) false)
    (I := fun j mem' => plic.Cleared mem₀ mem' k ∧ ∀ sourceId : BitVec 32, sourceId.toNat < j →
      plic.getEnableBit mem' (BitVec.ofNat 32 k) sourceId = false)
    ⟨h.setThreshold hfits (by omega) hc, by simp⟩ ?_
  · obtain ⟨hcleared, hlast⟩ := hloop
    refine ⟨hcleared.priority, fun c s hlt hs => ?_, hcleared.pending⟩
    by_cases he : c = BitVec.ofNat 32 k
    · rw [he]
      exact hlast s (by omega)
    · have hne : c.toNat ≠ k := fun hc' => he (BitVec.eq_of_toNat_eq (hc'.trans hk32.symm))
      exact hcleared.enabled c s (by omega) hs
  · intro j hj mem' ⟨hcleared, hbits⟩
    have hj32 : (BitVec.ofNat 32 j).toNat = j := by
      rw [BitVec.toNat_ofNat]
      omega
    have hs : BitVec.ofNat 32 j < 1024 := by bv_omega
    refine ⟨hcleared.clearEnableBit hfits (by omega) hc hs, fun s hlt => ?_⟩
    rw [plic.getEnableBit_setEnableBit false hc hs hc (by bv_omega)]
    split
    · rfl
    · rename_i hne
      have hne' : s.toNat ≠ j :=
        fun he => hne ⟨rfl, BitVec.eq_of_toNat_eq (he.trans hj32.symm)⟩
      exact hbits s (by omega)

theorem cleared_construct (hfits : plic.Fits) (mem : PlicMemory) :
    plic.Cleared mem (plic.construct mem) plic.contextCount.toNat := by
  apply foldl_range_induction (I := fun k mem' => plic.Cleared mem mem' k)
  · exact cleared_priorities hfits mem
  · intro k hk mem' h
    exact h.context hfits hk

end Plic

/-! ## What `Get` returns -/

namespace PlicSet

def priority? (sourceId : BitVec 32) (op : PlicSet) : Option (BitVec 32) :=
  if op.sourceId = sourceId then some op.priority else none

def enable? (hartId sourceId : BitVec 32) (op : PlicSet) : Option Bool :=
  if op.hartId = hartId ∧ op.sourceId = sourceId then some op.enable else none

end PlicSet

/-- After construction and any calls of `Set`, `Get` returns the priority that the last call for
the source gave and the flag that the last call for the hart and the source gave, and no call
changes anything else. -/
theorem plic_round_trips (plic : Plic) (hfits : plic.Fits) (mem : PlicMemory)
    (ops : List PlicSet) (hops : ∀ op ∈ ops, plic.Has op.hartId op.sourceId) :
    (∀ hartId sourceId, plic.Has hartId sourceId →
      plic.get (ops.foldl plic.apply (plic.construct mem)) hartId sourceId =
        ((latest (·.priority? sourceId) ops).getD 0,
          (latest (·.enable? hartId sourceId) ops).getD false,
          plic.getPendingBit mem sourceId)) ∧
    ∀ (before : PlicMemory) (op : PlicSet), plic.Has op.hartId op.sourceId →
      plic.Leaves before (plic.apply before op) op := by
  refine ⟨fun hartId sourceId h => ?_, fun before op hop => Plic.leaves_apply hop hfits⟩
  have hs := h.source_lt hfits
  have hc := h.context_lt hfits
  have hcleared := Plic.cleared_construct hfits mem
  have hpriority : ops.foldl plic.apply (plic.construct mem) (plic.sourcePriority sourceId) =
      (latest (·.priority? sourceId) ops).getD
        (plic.construct mem (plic.sourcePriority sourceId)) := by
    apply observe_foldl (g := fun mem : PlicMemory => mem (plic.sourcePriority sourceId))
    intro op hop mem
    rw [Plic.priority_apply (hops op hop) hfits hs, PlicSet.priority?]
    by_cases he : op.sourceId = sourceId
    · simp [he]
    · simp [he, Ne.symm he]
  have henable : plic.getEnableBit (ops.foldl plic.apply (plic.construct mem))
      (Plic.getContextId hartId) sourceId =
        (latest (·.enable? hartId sourceId) ops).getD
          (plic.getEnableBit (plic.construct mem) (Plic.getContextId hartId) sourceId) := by
    apply observe_foldl
      (g := fun mem : PlicMemory => plic.getEnableBit mem (Plic.getContextId hartId) sourceId)
    intro op hop mem
    have hsame : Plic.getContextId hartId = Plic.getContextId op.hartId ↔ op.hartId = hartId := by
      have hcontext := h.toNat_context hfits
      have hcontext' := (hops op hop).toNat_context hfits
      rw [← BitVec.toNat_inj, hcontext, hcontext', ← BitVec.toNat_inj]
      omega
    rw [Plic.getEnableBit_apply (hops op hop) hfits hc hs, PlicSet.enable?]
    simp only [hsame, eq_comm (a := sourceId)]
    split <;> rfl
  have hpending : plic.getPendingBit (ops.foldl plic.apply (plic.construct mem)) sourceId =
      plic.getPendingBit (plic.construct mem) sourceId := by
    have hrun := observe_foldl (g := fun mem : PlicMemory => plic.getPendingBit mem sourceId)
      (f := fun _ => none) (fun op hop mem => Plic.pending_apply (hops op hop) hfits hs)
      (plic.construct mem)
    rw [hrun, latest, List.findSome?_eq_none_iff.mpr fun _ _ => rfl]
    rfl
  rw [Plic.get, hpriority, henable, hpending, Plic.sourcePriority_eq, hcleared.priority _ h.1,
    hcleared.enabled _ _ _ h.1]
  · rw [plic.getPendingBit_congr (hcleared.pending _ _)]
    bv_omega
  · rw [h.toNat_context hfits]
    exact h.2

/-- Two harts use one source. -/
theorem plic_round_trips_example :
    let plic : Plic := ⟨0xC000000, 8, 4⟩
    let ops := [⟨0, 5, 3, true⟩, ⟨1, 5, 7, false⟩]
    plic.get (ops.foldl plic.apply (plic.construct fun _ => 0)) 0 5 = (7, true, false) := by
  intro plic ops
  have hrun := (plic_round_trips plic ⟨by decide, by decide⟩ (fun _ => 0) ops (by decide)).1 0 5
    ⟨by decide, by decide⟩
  rw [hrun]
  decide

end NaiLongKernel.Driver
