import NaiLongKernel.Fdt.KernelFdt

/-!
# The `reg` property

A `reg` property is read as pairs of big-endian numbers of 64 bits, and the last complete
pair is the result. When there is none the loops leave their initial values, and the queries
return them as a region.
-/
namespace NaiLongKernel.Fdt

open Foundation Libc

variable {data : List Byte} {off n : ℕ} {s : Unit} {E : FdtStop → Unit → Prop}

/-! ## Numbers in a property -/

/-- The number that the bytes spell, the highest first. -/
def numeral (bytes : List Byte) : ℕ := bytes.foldl (fun acc b => acc * 256 + b.toNat) 0

theorem numeral_append_singleton (l : List Byte) (b : Byte) :
    numeral (l ++ [b]) = numeral l * 256 + b.toNat := by
  simp [numeral]

theorem bigEndian_append_singleton (l : List Byte) (b : Byte) :
    bigEndian (l ++ [b]) = bigEndian l <<< 8 ||| b.setWidth 64 := by
  simp [bigEndian]

theorem numeral_lt (l : List Byte) : numeral l < 256 ^ l.length := by
  induction l using List.reverseRecOn with
  | nil => simp [numeral]
  | append_singleton l b ih =>
    have hb := b.isLt
    rw [numeral_append_singleton, List.length_append, List.length_singleton, pow_succ]
    omega

theorem bigEndian_toNat {l : List Byte} (h : l.length ≤ 8) : (bigEndian l).toNat = numeral l := by
  induction l using List.reverseRecOn with
  | nil => rfl
  | append_singleton l b ih =>
    rw [List.length_append, List.length_singleton] at h
    have hl := ih (by omega)
    have hlt : numeral l < 2 ^ 56 := by
      have hpow : 256 ^ l.length ≤ 256 ^ 7 := Nat.pow_le_pow_right (by decide) (by omega)
      have hnum := numeral_lt l
      omega
    have hb := b.isLt
    have hshift : (bigEndian l <<< 8).toNat = numeral l <<< 8 := by
      rw [BitVec.toNat_shiftLeft, hl, Nat.shiftLeft_eq]
      omega
    have hbyte : (b.setWidth 64).toNat = b.toNat := by
      rw [BitVec.toNat_setWidth]
      omega
    rw [bigEndian_append_singleton, numeral_append_singleton, BitVec.toNat_or, hshift, hbyte,
      ← Nat.shiftLeft_add_eq_or_of_lt hb, Nat.shiftLeft_eq]

/-! ## Readers that stay inside -/

theorem wp_readByte {b : Byte} {Q : Byte → Unit → Prop} (h : data[n]? = some b) :
    wp (readByte data n) Q E s ↔ Q b s := by
  simp [readByte, h]

theorem wp_readBytes {Q : List Byte → Unit → Prop} (h : off + n ≤ data.length) :
    wp (readBytes data off n) Q E s ↔ Q ((data.drop off).take n) s := by
  induction n generalizing off Q with
  | zero => simp [readBytes]
  | succ n ih =>
    have hoff : off < data.length := by omega
    rw [readBytes, wp_bind, wp_readByte (List.getElem?_eq_getElem hoff), wp_bind,
      ih (by omega), wp_pure, List.drop_eq_getElem_cons hoff, List.take_succ_cons]

theorem wp_loadBeU64 {Q : BitVec 64 → Unit → Prop} (h : off + 8 ≤ data.length) :
    wp (loadBeU64 data off) Q E s ↔ Q (bigEndian ((data.drop off).take 8)) s := by
  rw [loadBeU64, wp_bind, wp_readBytes h, wp_pure]

theorem wp_loadBeU32 {Q : BitVec 32 → Unit → Prop} (h : off + 4 ≤ data.length) :
    wp (loadBeU32 data off) Q E s ↔ Q ((bigEndian ((data.drop off).take 4)).setWidth 32) s := by
  rw [loadBeU32, wp_bind, wp_readBytes h, wp_pure]

theorem wp_addInt {a b : ℕ} {Q : ℕ → Unit → Prop} (h : a + b < 2 ^ 31) :
    wp (addInt a b) Q E s ↔ Q (a + b) s := by
  rw [addInt, if_pos h, wp_pure]

/-! ## The loop over the pairs -/

/-- The pair with the number `k`. -/
def pairAt (data : List Byte) (k : ℕ) : BitVec 64 × BitVec 64 :=
  (bigEndian ((data.drop (16 * k)).take 8), bigEndian ((data.drop (16 * k + 8)).take 8))

/-- What the loop has after `k` turns. -/
def regAfter (data : List Byte) : ℕ → BitVec 64 × BitVec 64
  | 0 => (0, 0)
  | k + 1 => pairAt data k

theorem wp_regLoop {Q : BitVec 64 × BitVec 64 → Unit → Prop} (hlen : data.length + 16 < 2 ^ 31)
    {fuel k : ℕ} (hfuel : data.length < 16 * (k + fuel)) (hk : 16 * k ≤ data.length) :
    wp (regLoop data fuel (16 * k) (regAfter data k)) Q E s ↔
      Q (regAfter data (data.length / 16)) s := by
  induction fuel generalizing k with
  | zero => omega
  | succ fuel ih =>
    have hint : 16 * k + kPairBytes < 2 ^ 31 := by
      rw [kPairBytes]
      omega
    rw [regLoop, wp_bind, wp_addInt hint, wp_ite]
    split
    · rename_i hpair
      rw [kPairBytes] at hpair
      have hnext : 16 * k + kPairBytes = 16 * (k + 1) := by
        rw [kPairBytes]
        omega
      rw [wp_bind, wp_loadBeU64 (by omega), wp_bind, wp_loadBeU64 (by omega), wp_bind,
        wp_addInt hint, hnext]
      exact ih (by omega) (by omega)
    · rename_i hpair
      rw [kPairBytes] at hpair
      have hlast : data.length / 16 = k := by omega
      rw [wp_pure, hlast]

theorem wp_decodeReg {Q : BitVec 64 × BitVec 64 → Unit → Prop} (hlen : data.length + 16 < 2 ^ 31) :
    wp (decodeReg data) Q E s ↔ Q (regAfter data (data.length / 16)) s := by
  have hfuel : data.length < 16 * (0 + (data.length + 1)) := by omega
  exact wp_regLoop hlen hfuel (Nat.zero_le _)

/-- The last complete pair of a property that has one. -/
structure IsLastPair (data : List Byte) (reg : BitVec 64 × BitVec 64) : Prop where
  complete : 16 ≤ data.length
  base : reg.1.toNat = numeral ((data.drop (16 * (data.length / 16 - 1))).take 8)
  size : reg.2.toNat = numeral ((data.drop (16 * (data.length / 16 - 1) + 8)).take 8)

theorem isLastPair_regAfter (h : 16 ≤ data.length) :
    IsLastPair data (regAfter data (data.length / 16)) := by
  have hpairs : data.length / 16 = data.length / 16 - 1 + 1 := by omega
  refine ⟨h, ?_, ?_⟩
  · rw [hpairs]
    exact bigEndian_toNat (List.length_take_le ..)
  · rw [hpairs]
    exact bigEndian_toNat (List.length_take_le ..)

/-! ## The queries for a region -/

variable {lib : Libfdt}

theorem Libfdt.length_lt {offset : ℤ} {name : String} (h : lib.getProperty offset name = some data) :
    data.length + 40 < 2 ^ 31 := by
  have hfits := lib.property_fits h
  have hsize := lib.totalsize_lt
  omega

/-- The queries that return the region of a `reg` property. -/
inductive RegQuery where
  | regProperty (offset : ℤ)
  | memory
  | plic
  /-- The address and the size of `GetSerial`. -/
  | serial

namespace RegQuery

def region (lib : Libfdt) : RegQuery → FdtM (BitVec 64 × BitVec 64)
  | regProperty offset => getRegProperty lib offset
  | memory => getMemory lib
  | plic => do return (← getPlic lib).1
  | serial => do
    let (base, size, _) ← getSerial lib
    return (base, size)

/-- The node whose `reg` is decoded. -/
def node (lib : Libfdt) : RegQuery → ℤ
  | regProperty offset => offset
  | memory => lib.pathOffset (text "/memory")
  | plic =>
    let offset := lib.nodeOffsetByCompatible (-1) (text "sifive,plic-1.0.0")
    if offset < 0 then lib.nodeOffsetByCompatible (-1) (text "riscv,plic0") else offset
  | serial =>
    match lib.getProperty (lib.pathOffset (text "/chosen")) "stdout-path" with
    | some data => consoleOffset lib (consolePath (data.take 255))
    | none => -1

/-- Apart from `reg`, the tree has what the query asks for. -/
def Ready (lib : Libfdt) : RegQuery → Prop
  | regProperty _ => True
  | memory => 0 ≤ memory.node lib
  | plic => 0 ≤ plic.node lib ∧ (lib.getProperty (plic.node lib) "interrupts-extended").isSome ∧
      ∃ data, lib.getProperty (plic.node lib) "riscv,ndev" = some data ∧ 4 ≤ data.length
  | serial => 0 ≤ lib.pathOffset (text "/chosen") ∧
      (∃ data, lib.getProperty (lib.pathOffset (text "/chosen")) "stdout-path" = some data ∧
        data ≠ []) ∧
      0 ≤ serial.node lib ∧ (lib.getProperty (serial.node lib) "interrupts").isSome

/-- The query decodes the last complete pair or refuses; it does not refuse without a reason. -/
structure Decodes (lib : Libfdt) (query : RegQuery) : Prop where
  success : ∀ reg, query.region lib () = .ok reg () →
    ∃ data, lib.getProperty (query.node lib) "reg" = some data ∧ IsLastPair data reg
  complete : query.Ready lib → ∀ data, lib.getProperty (query.node lib) "reg" = some data →
    16 ≤ data.length → ∃ reg, query.region lib () = .ok reg ()
  refusal : ∀ stop, query.region lib () = .error stop () → ∃ code, stop = .refused code

end RegQuery

theorem wp_needProperty {offset : ℤ} {name : String} {Q : List Byte → Unit → Prop}
    (hE : lib.getProperty offset name = none → E (.refused .kFdtPropertyNotFound) s)
    (h : ∀ data, lib.getProperty offset name = some data → Q data s) :
    wp (needProperty lib offset name) Q E s := by
  rw [needProperty]
  cases hdata : lib.getProperty offset name with
  | none => exact (wp_throw _).mpr (hE hdata)
  | some data => exact (wp_pure _).mpr (h data hdata)

theorem wp_checkOffset {offset : ℤ} {Q : ℤ → Unit → Prop}
    (hE : offset < 0 → E (.refused .kFdtNodeNotFound) s) (h : 0 ≤ offset → Q offset s) :
    wp (checkOffset offset) Q E s := by
  rw [checkOffset, wp_ite]
  split
  · rename_i hneg
    exact (wp_throw _).mpr (hE hneg)
  · exact (wp_pure _).mpr (h (by omega))

theorem wp_getRegProperty {offset : ℤ} {Q : BitVec 64 × BitVec 64 → Unit → Prop}
    (hE : lib.getProperty offset "reg" = none → E (.refused .kFdtPropertyNotFound) s)
    (h : ∀ data, lib.getProperty offset "reg" = some data →
      Q (regAfter data (data.length / 16)) s) : wp (getRegProperty lib offset) Q E s := by
  rw [getRegProperty, wp_bind]
  apply wp_needProperty hE
  intro data hdata
  have hlen := Libfdt.length_lt hdata
  rw [wp_decodeReg (by omega)]
  exact h data hdata

theorem findPlic_eq : findPlic lib = checkOffset (RegQuery.plic.node lib) := by
  rw [findPlic, RegQuery.node]
  split
  · rfl
  · rename_i hoffset
    rw [checkOffset, if_neg hoffset]

namespace RegQuery

/-- The query has all that it asks for. -/
def Served (lib : Libfdt) (query : RegQuery) : Prop :=
  query.Ready lib ∧ (lib.getProperty (query.node lib) "reg").isSome

theorem Served.not_of_none {query : RegQuery} (h : lib.getProperty (query.node lib) "reg" = none) :
    ¬query.Served lib := by
  rintro ⟨-, hsome⟩
  rw [h] at hsome
  cases hsome

end RegQuery

section Served

open RegQuery

theorem wp_getPlic {Q : (BitVec 64 × BitVec 64) × BitVec 32 × BitVec 32 → Unit → Prop}
    (hE : ¬plic.Served lib → ∀ code, E (.refused code) s)
    (h : plic.Ready lib → ∀ data, lib.getProperty (plic.node lib) "reg" = some data →
      ∀ ndev contextCount, Q (regAfter data (data.length / 16), ndev, contextCount) s) :
    wp (getPlic lib) Q E s := by
  have hnot : ¬plic.Ready lib → ∀ code, E (.refused code) s := fun hr => hE fun hs => hr hs.1
  rw [getPlic, findPlic_eq, wp_bind]
  apply wp_checkOffset
  · intro hneg
    apply hnot
    rintro ⟨hnode, -⟩
    omega
  intro hnode
  rw [wp_bind]
  apply wp_needProperty
  · intro hnone
    apply hnot
    rintro ⟨-, hsome, -⟩
    rw [hnone] at hsome
    cases hsome
  intro extended hextended
  dsimp only
  rw [wp_bind]
  apply wp_needProperty
  · intro hnone
    apply hnot
    rintro ⟨-, -, ndev, hndev, -⟩
    rw [hnone] at hndev
    cases hndev
  intro ndev hndev
  rw [wp_ite]
  split
  · rename_i hshort
    rw [wp_bind, wp_throw]
    apply hnot
    rintro ⟨-, -, ndev', hndev', hlen⟩
    obtain rfl := Option.mem_unique hndev hndev'
    omega
  · rename_i hlen
    rw [wp_bind, wp_loadBeU32 (by omega), wp_bind]
    apply wp_getRegProperty
    · exact fun hnone => hE (Served.not_of_none hnone) _
    intro data hdata
    rw [wp_pure]
    exact h ⟨hnode, by rw [hextended]; rfl, ndev, hndev, by omega⟩ data hdata _ _

theorem wp_findConsole {Q : ℤ → Unit → Prop} (hE : ¬serial.Ready lib → ∀ code, E (.refused code) s)
    (h : 0 ≤ lib.pathOffset (text "/chosen") →
      (∃ data, lib.getProperty (lib.pathOffset (text "/chosen")) "stdout-path" = some data ∧
        data ≠ []) → 0 ≤ serial.node lib → Q (serial.node lib) s) :
    wp (findConsole lib) Q E s := by
  rw [findConsole, findNode, wp_bind]
  apply wp_checkOffset
  · intro hneg
    apply hE
    rintro ⟨hchosen, -⟩
    omega
  intro hchosen
  rw [wp_bind]
  apply wp_needProperty
  · intro hnone
    apply hE
    rintro ⟨-, ⟨data, hdata, -⟩, -⟩
    rw [hnone] at hdata
    cases hdata
  intro data hdata
  rw [wp_ite]
  split
  · rename_i hempty
    rw [wp_bind, wp_throw]
    apply hE
    rintro ⟨-, ⟨data', hdata', hne⟩, -⟩
    obtain rfl := Option.mem_unique hdata hdata'
    exact hne (List.eq_nil_of_length_eq_zero hempty)
  · rename_i hlen
    -- at most 255 bytes are copied
    have hcopy : (data.drop 0).take (if 256 ≤ data.length then 255 else data.length) =
        data.take 255 := by
      rw [List.drop_zero]
      split
      · rfl
      · rw [List.take_length, List.take_of_length_le (by omega)]
    have hin : 0 + (if 256 ≤ data.length then 255 else data.length) ≤ data.length := by
      split <;> omega
    have hnode : serial.node lib = consoleOffset lib (consolePath (data.take 255)) := by
      rw [node, hdata]
    rw [wp_bind, wp_readBytes hin, hcopy, ← hnode]
    apply wp_checkOffset
    · intro hneg
      apply hE
      rintro ⟨-, -, hconsole, -⟩
      omega
    intro hconsole
    exact h hchosen ⟨data, hdata, fun hnil => hlen (by rw [hnil]; rfl)⟩ hconsole

theorem wp_firstCell {Q : BitVec 32 → Unit → Prop} (h : ∀ irq, Q irq s) :
    wp (firstCell data) Q E s := by
  rw [firstCell, wp_ite]
  split
  · rename_i hfour
    rw [wp_loadBeU32 (by omega)]
    exact h _
  · exact (wp_pure _).mpr (h _)

theorem wp_getSerial {Q : BitVec 64 × BitVec 64 × BitVec 32 → Unit → Prop}
    (hE : ¬serial.Served lib → ∀ code, E (.refused code) s)
    (h : serial.Ready lib → ∀ data, lib.getProperty (serial.node lib) "reg" = some data →
      ∀ irq, Q ((regAfter data (data.length / 16)).1, (regAfter data (data.length / 16)).2, irq) s) :
    wp (getSerial lib) Q E s := by
  have hnot : ¬serial.Ready lib → ∀ code, E (.refused code) s := fun hr => hE fun hs => hr hs.1
  rw [getSerial, wp_bind]
  apply wp_findConsole hnot
  intro hchosen hpath hconsole
  rw [wp_bind]
  apply wp_needProperty
  · exact fun hnone => hE (Served.not_of_none hnone) _
  intro data hdata
  have hlen := Libfdt.length_lt hdata
  rw [wp_bind, wp_decodeReg (by omega), wp_bind]
  apply wp_needProperty
  · intro hnone
    apply hnot
    rintro ⟨-, -, -, hsome⟩
    rw [hnone] at hsome
    cases hsome
  intro interrupts hinterrupts
  rw [wp_bind]
  apply wp_firstCell
  intro irq
  rw [wp_pure]
  exact h ⟨hchosen, hpath, hconsole, by rw [hinterrupts]; rfl⟩ data hdata irq

end Served

namespace RegQuery

theorem wp_region (query : RegQuery) {Q : BitVec 64 × BitVec 64 → Unit → Prop}
    (hE : ¬query.Served lib → ∀ code, E (.refused code) s)
    (h : query.Ready lib → ∀ data, lib.getProperty (query.node lib) "reg" = some data →
      Q (regAfter data (data.length / 16)) s) : wp (query.region lib) Q E s := by
  cases query with
  | regProperty offset =>
    exact wp_getRegProperty (fun hnone => hE (Served.not_of_none hnone) _) (h trivial)
  | memory =>
    rw [region, getMemory, findNode, wp_bind]
    apply wp_checkOffset
    · intro hneg
      apply hE
      rintro ⟨hnode, -⟩
      exact absurd hneg (not_lt.mpr hnode)
    intro hnode
    exact wp_getRegProperty (fun hnone => hE (Served.not_of_none hnone) _) (h hnode)
  | plic =>
    rw [region, wp_bind]
    apply wp_getPlic hE
    intro hready data hdata ndev contextCount
    rw [wp_pure]
    exact h hready data hdata
  | serial =>
    rw [region, wp_bind]
    apply wp_getSerial hE
    intro hready data hdata irq
    exact (wp_pure _).mpr (h hready data hdata)

end RegQuery

/-- A query decodes or refuses exactly when it meets no `reg` property without a complete pair:
for such a property it returns address 0 and size 0. -/
theorem reg_decoded_iff (lib : Libfdt) (query : RegQuery) :
    query.Decodes lib ↔ (query.Ready lib → ∀ data,
      lib.getProperty (query.node lib) "reg" = some data → 16 ≤ data.length) := by
  have hrun : wp (query.region lib) (fun reg _ => query.Ready lib ∧
      ∃ data, lib.getProperty (query.node lib) "reg" = some data ∧
        reg = regAfter data (data.length / 16))
      (fun stop _ => ¬query.Served lib ∧ ∃ code, stop = .refused code) () := by
    apply query.wp_region
    · exact fun hnot code => ⟨hnot, code, rfl⟩
    · exact fun hready data hdata => ⟨hready, data, hdata, rfl⟩
  have hreturn : query.Ready lib → ∀ data, lib.getProperty (query.node lib) "reg" = some data →
      ∃ reg, query.region lib () = .ok reg () := by
    intro hready data hdata
    cases hregion : query.region lib () with
    | ok reg _ => exact ⟨reg, rfl⟩
    | error stop _ => exact absurd ⟨hready, by rw [hdata]; rfl⟩ (hrun.of_error hregion).1
  constructor
  · intro h hready data hdata
    obtain ⟨reg, hreg⟩ := hreturn hready data hdata
    obtain ⟨data', hdata', hlast⟩ := h.success reg hreg
    obtain rfl := Option.mem_unique hdata hdata'
    exact hlast.complete
  · intro h
    refine ⟨?_, fun hready data hdata _ => hreturn hready data hdata, ?_⟩
    · intro reg hreg
      obtain ⟨hready, data, hdata, rfl⟩ := hrun.of_ok hreg
      exact ⟨data, hdata, isLastPair_regAfter (h hready data hdata)⟩
    · exact fun stop hstop => (hrun.of_error hstop).2

/-- A tree in which every property has these bytes. -/
def uniformTree (data : List Byte) (hlen : data.length < 2 ^ 30) : Libfdt where
  pathOffset _ := 0
  getAlias _ := none
  nextNode start := if start < 0 then 0 else -fdtErrNotfound
  nodeOffsetByCompatible start _ := if start < 0 then 0 else -fdtErrNotfound
  getProperty _ _ := some data
  totalsize := data.length + 40
  nextNode_grows := by
    intro start h
    split at h
    · rename_i hneg
      rw [if_pos hneg]
      omega
    · exact absurd h (by decide)
  compatible_grows := by
    intro start compatible h
    split at h
    · rename_i hneg
      rw [if_pos hneg]
      omega
    · exact absurd h (by decide)
  property_fits := by
    rintro offset name data' ⟨⟩
    exact le_rfl
  totalsize_lt := by omega

/-- A property of two cells of 32 bits: the memory becomes a region of 0 bytes at address 0. -/
theorem short_reg_accepted :
    let lib := uniformTree (text "8 bytes!") (by decide)
    getMemory lib () = .ok (0, 0) () ∧ ¬RegQuery.memory.Decodes lib := by
  intro lib
  have hrun : getMemory lib () = .ok (0, 0) () := rfl
  refine ⟨hrun, fun h => ?_⟩
  obtain ⟨data, hdata, hlast⟩ := h.success (0, 0) hrun
  obtain rfl : text "8 bytes!" = data := Option.some.inj hdata
  exact absurd hlast.complete (by decide)

end NaiLongKernel.Fdt
