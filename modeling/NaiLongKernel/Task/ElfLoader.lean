import NaiLongKernel.Memory.Mmio
import NaiLongKernel.Memory.PageBytes

/-!
# Loading a program

`LoadElf` reads the program headers of an image and gives every page of a loadable segment a
new frame: zeroed, with the part of the file that lies in the page copied into it. A page that
two segments touch is mapped twice, and the second frame holds nothing of the first segment.
-/
namespace NaiLongKernel.Task

open Foundation Foundation.Radix Memory

abbrev ElfImage := ℕ → BitVec 8

/-- A number of `n` bytes, least significant first. -/
def littleEndian (elf : ElfImage) : (n offset : ℕ) → ℕ
  | 0, _ => 0
  | n+1, offset => (elf offset).toNat + 256 * littleEndian elf n (offset + 1)

/-- The members of a program header that are read. -/
structure Elf64Phdr where
  pType : BitVec 32
  pFlags : BitVec 32
  pOffset : BitVec 64
  pVaddr : BitVec 64
  pFilesz : BitVec 64
  pMemsz : BitVec 64
deriving DecidableEq, Repr

def ptLoad : BitVec 32 := 1
def pfX : BitVec 32 := 1
def pfW : BitVec 32 := 2
def pfR : BitVec 32 := 4

section Header

variable (elf : ElfImage)

def hasElfMagic : Bool := elf 0 == 0x7f && elf 1 == 0x45 && elf 2 == 0x4c && elf 3 == 0x46

def eEntry : BitVec 64 := BitVec.ofNat 64 (littleEndian elf 8 24)

def ePhoff : ℕ := littleEndian elf 8 32

def ePhnum : ℕ := littleEndian elf 2 56

def phdrAt (offset : ℕ) : Elf64Phdr where
  pType := BitVec.ofNat 32 (littleEndian elf 4 offset)
  pFlags := BitVec.ofNat 32 (littleEndian elf 4 (offset + 4))
  pOffset := BitVec.ofNat 64 (littleEndian elf 8 (offset + 8))
  pVaddr := BitVec.ofNat 64 (littleEndian elf 8 (offset + 16))
  pFilesz := BitVec.ofNat 64 (littleEndian elf 8 (offset + 32))
  pMemsz := BitVec.ofNat 64 (littleEndian elf 8 (offset + 40))

/-- `phdr[i]` for each `i` below `e_phnum`. -/
def phdrs : List Elf64Phdr := (List.range (ePhnum elf)).map fun i =>
  phdrAt elf (ePhoff elf + 56 * i)

end Header

namespace Elf64Phdr

variable (p : Elf64Phdr)

def flags : BitVec 32 :=
  (getUserPagePermissions (p.pFlags &&& pfR != 0) (p.pFlags &&& pfW != 0)
    (p.pFlags &&& pfX != 0)).setWidth 32

def startPage : Addr := pageAlign p.pVaddr

def endPage : Addr := pageAlignUp (p.pVaddr + p.pMemsz)

end Elf64Phdr

/-- A frame is zeroed, and the part of the file that lies in the page is copied into it. -/
def fillPage (elf : ElfImage) (p : Elf64Phdr) (page frame : Addr) (vm : Vm) : Vm :=
  let vm := vm.clearTable frame
  let vStart := page
  let vEnd := page + BitVec.ofNat 64 kPageSize
  let fileStart := p.pVaddr
  let fileEnd := p.pVaddr + p.pFilesz
  let copyStart := if vStart < fileStart then fileStart else vStart
  let copyEnd := if fileEnd < vEnd then fileEnd else vEnd
  if copyStart < copyEnd then
    let dstOff := copyStart - vStart
    let srcOff := (copyStart - p.pVaddr) + p.pOffset
    vm.copyBytes elf frame (copyEnd - copyStart).toNat dstOff.toNat srcOff.toNat
  else vm

variable (A : Allocator)

/-- `MapPage`, with whether it has succeeded. -/
def mapsPage (pageTable page frame : Addr) (flags : BitVec 32) : VmM Bool := fun vm =>
  match mapPage A pageTable page frame flags vm with
  | .ok _ vm => .ok true vm
  | .error (.unexpected _) vm => .ok false vm
  | .error (.assertFailed message) vm => .error (.assertFailed message) vm

/-- The loop over the pages of a segment; `false` is the `return 0` of a failure. -/
def loadPages (elf : ElfImage) (pageTable : Addr) (p : Elf64Phdr) :
    (fuel : ℕ) → (page : Addr) → VmM Bool
  | 0, _ => pure true
  | fuel+1, page =>
    if page < p.endPage then do
      match ← alignedAlloc A with
      | none => pure false
      | some frame =>
        modify (fillPage elf p page frame)
        if ← mapsPage A pageTable page frame p.flags then
          loadPages elf pageTable p fuel (page + BitVec.ofNat 64 kPageSize)
        else pure false
    else pure true

def loadSegments (elf : ElfImage) (pageTable : Addr) : List Elf64Phdr → VmM Bool
  | [] => pure true
  | p :: rest =>
    if p.pType ≠ ptLoad then loadSegments elf pageTable rest
    else do
      if ← loadPages A elf pageTable p ((p.endPage.toNat - p.startPage.toNat) / kPageSize)
        p.startPage then
        loadSegments elf pageTable rest
      else pure false

def loadElf (elf : ElfImage) (pageTable : Addr) : VmM (BitVec 64) :=
  if hasElfMagic elf then do
    if ← loadSegments A elf pageTable (phdrs elf) then pure (eEntry elf) else pure 0
  else pure 0

/-! ## What a program is to find in memory -/

/-- The byte that a program reads at an address. -/
def loadedByte (vm : Vm) (pageTable : Addr) (va : Addr) : Option (BitVec 8) :=
  (translate vm pageTable va).map fun pte =>
    vm.byteAt (pageTableEntryToPhysical pte) (va.toNat % kPageSize)

namespace Elf64Phdr

variable (p q : Elf64Phdr)

/-- The segment lies in the file and below 2^47 in memory. -/
structure InBounds (size : ℕ) : Prop where
  filesz : p.pFilesz.toNat ≤ p.pMemsz.toNat
  file : p.pOffset.toNat + p.pFilesz.toNat ≤ size
  memory : p.pVaddr.toNat + p.pMemsz.toNat < 2^47

/-- No address belongs to both segments. -/
def Apart : Prop := ∀ x, ¬ ((p.pVaddr.toNat ≤ x ∧ x < p.pVaddr.toNat + p.pMemsz.toNat) ∧
  q.pVaddr.toNat ≤ x ∧ x < q.pVaddr.toNat + q.pMemsz.toNat)

/-- The page is one that the loop over the pages of the segment maps. -/
def Touches (page : Addr) : Prop := p.startPage ≤ page ∧ page < p.endPage

instance (page : Addr) : Decidable (p.Touches page) := inferInstanceAs (Decidable (_ ∧ _))

/-- Byte `k` of the segment. -/
def byte (elf : ElfImage) (k : ℕ) : BitVec 8 :=
  if k < p.pFilesz.toNat then elf (p.pOffset.toNat + k) else 0

/-- The bytes of a page of the segment, by offset. -/
def pageBytes (elf : ElfImage) (page : Addr) (o : ℕ) : BitVec 8 :=
  if p.pVaddr.toNat ≤ page.toNat + o ∧ page.toNat + o < p.pVaddr.toNat + p.pFilesz.toNat then
    elf (p.pOffset.toNat + (page.toNat + o - p.pVaddr.toNat))
  else 0

end Elf64Phdr

/-- The contents of the mapped pages. -/
abbrev PageContents := Addr → Option (ℕ → BitVec 8)

/-- A segment replaces the pages that it touches. -/
def PageContents.load (elf : ElfImage) (c : PageContents) (p : Elf64Phdr) : PageContents :=
  fun page => if p.Touches page then some (p.pageBytes elf page) else c page

section Page

variable {elf : ElfImage} {p : Elf64Phdr} {page frame : Addr} {vm : Vm}

theorem byteAt_fillPage (hpage : page.toNat < 2^47)
    (hfile : p.pVaddr.toNat + p.pFilesz.toNat < 2^47)
    (hoffset : p.pOffset.toNat + p.pFilesz.toNat ≤ 2^64) {o : ℕ} (ho : o < 4096) :
    (fillPage elf p page frame vm).byteAt frame o = p.pageBytes elf page o := by
  have hend : (page + BitVec.ofNat 64 kPageSize).toNat = page.toNat + 4096 :=
    toNat_add_pageSize hpage
  have hfileEnd : (p.pVaddr + p.pFilesz).toNat = p.pVaddr.toNat + p.pFilesz.toNat := by
    rw [BitVec.toNat_add]
    exact Nat.mod_eq_of_lt (by omega)
  -- the bounds of the copy as numbers
  obtain ⟨copyStart, hstart, hstartNat⟩ : ∃ c, (if page < p.pVaddr then p.pVaddr else page) = c ∧
      c.toNat = max page.toNat p.pVaddr.toNat := by
    refine ⟨_, rfl, ?_⟩
    simp only [BitVec.lt_def]
    split <;> omega
  obtain ⟨copyEnd, hcopyEnd, hendNat⟩ : ∃ c,
    (if p.pVaddr + p.pFilesz < page + BitVec.ofNat 64 kPageSize
      then p.pVaddr + p.pFilesz else page + BitVec.ofNat 64 kPageSize) = c ∧
      c.toNat = min (page.toNat + 4096) (p.pVaddr.toNat + p.pFilesz.toNat) := by
    refine ⟨_, rfl, ?_⟩
    simp only [BitVec.lt_def, hend, hfileEnd]
    split <;> omega
  simp only [fillPage, hstart, hcopyEnd]
  simp only [BitVec.lt_def, hstartNat, hendNat]
  split
  · rename_i hlt
    have hlen : (copyEnd - copyStart).toNat = copyEnd.toNat - copyStart.toNat :=
      BitVec.toNat_sub_of_le (BitVec.le_def.mpr (by omega))
    have hdst : (copyStart - page).toNat = copyStart.toNat - page.toNat :=
      BitVec.toNat_sub_of_le (BitVec.le_def.mpr (by omega))
    have hsrc : (copyStart - p.pVaddr + p.pOffset).toNat =
        copyStart.toNat - p.pVaddr.toNat + p.pOffset.toNat := by
      rw [BitVec.toNat_add, BitVec.toNat_sub_of_le (BitVec.le_def.mpr (by omega))]
      exact Nat.mod_eq_of_lt (by omega)
    rw [byteAt_copyBytes, byteAt_clearTable, hlen, hdst, hsrc, Elf64Phdr.pageBytes]
    by_cases hin : p.pVaddr.toNat ≤ page.toNat + o ∧
      page.toNat + o < p.pVaddr.toNat + p.pFilesz.toNat
    · rw [if_pos hin, if_pos (by omega)]
      apply congrArg elf
      omega
    · rw [if_neg hin, if_neg (by omega)]
  · rw [byteAt_clearTable, Elf64Phdr.pageBytes, if_neg (by omega)]

theorem exists_fillPage_eq (elf : ElfImage) (p : Elf64Phdr) (page frame : Addr) (vm : Vm) :
    ∃ n dst first, fillPage elf p page frame vm =
      (vm.clearTable frame).copyBytes elf frame n dst first := by
  simp only [fillPage]
  generalize (if page < p.pVaddr then p.pVaddr else page) = copyStart
  generalize (if p.pVaddr + p.pFilesz < _ then _ else _) = copyEnd
  split
  · exact ⟨_, _, _, rfl⟩
  · exact ⟨0, 0, 0, rfl⟩

theorem fillPage_frame (elf : ElfImage) (p : Elf64Phdr) (page frame : Addr) (vm : Vm) :
    (∀ x, x ≠ frame → (fillPage elf p page frame vm).mem x = vm.mem x) ∧
      (fillPage elf p page frame vm).live = vm.live ∧
      (fillPage elf p page frame vm).calls = vm.calls ∧
      (fillPage elf p page frame vm).freed = vm.freed ∧
      (fillPage elf p page frame vm).destroyed = vm.destroyed := by
  obtain ⟨n, dst, first, hfill⟩ := exists_fillPage_eq elf p page frame vm
  obtain ⟨hmem, hrest⟩ := copyBytes_frame (vm.clearTable frame) elf n dst first
  rw [hfill]
  refine ⟨fun x hx => ?_, hrest⟩
  rw [hmem x hx]
  exact Function.update_of_ne hx _ _

theorem flags_valid (p : Elf64Phdr) : isPageTableEntryValid (p.flags.setWidth 64) = true := by
  unfold Elf64Phdr.flags
  cases (p.pFlags &&& pfR != 0) <;> cases (p.pFlags &&& pfW != 0) <;>
    cases (p.pFlags &&& pfX != 0) <;> rfl

end Page

/-- The directory shows the contents: each page is mapped to a live frame with its bytes, and
no frame is a table of the directory. -/
structure Shows (vm : Vm) (root : Addr) (T : PageTree (kPageTableLevels - 1)) (c : PageContents) :
    Prop where
  owns : Owns vm (kPageTableLevels - 1) root T
  bytes : ∀ page, IsCanonical page → ∀ f, c page = some f → ∃ pte,
    translate vm root page = some pte ∧
    pageTableEntryToPhysical pte ∈ vm.live ∧
    pageTableEntryToPhysical pte ∉ foot x86 (kPageTableLevels - 1) root T ∧
    ∀ o < kPageSize, vm.byteAt (pageTableEntryToPhysical pte) o = f o

section Load

variable {A : Allocator} {elf : ElfImage} {p : Elf64Phdr} {vm vm' : Vm} {root page frame : Addr}
  {T T' : PageTree (kPageTableLevels - 1)} {c : PageContents}

theorem Shows.fill (h : Shows vm root T c) (hfresh : frame ∉ vm.live) (elf : ElfImage)
    (p : Elf64Phdr) (page : Addr) (calls : ℕ) :
    Shows (fillPage elf p page frame { vm with calls := calls, live := frame :: vm.live })
      root T c := by
  obtain ⟨hmem, hlive, -, hfreed, hdestroyed⟩ :=
    fillPage_frame elf p page frame { vm with calls := calls, live := frame :: vm.live }
  have hgrows : Grows ∅ vm
      (fillPage elf p page frame { vm with calls := calls, live := frame :: vm.live }) := by
    refine Grows.of_live ?_ ?_ hfreed hdestroyed
    · intro x hx
      rw [hlive]
      exact List.mem_cons_of_mem _ hx
    · intro x hx _
      exact hmem x fun he => hfresh (he ▸ hx)
  have howns := h.owns.frame hgrows (Set.disjoint_empty _)
  refine ⟨howns, ?_⟩
  intro page' hpage' f hf
  obtain ⟨pte, htranslate, hframe, hfoot, hbytes⟩ := h.bytes page' hpage' f hf
  refine ⟨pte, ?_, hgrows.live _ hframe, hfoot, ?_⟩
  · rw [howns.translate_same h.owns rfl, htranslate]
  · intro o ho
    rw [byteAt_congr (hgrows.mem _ hframe (Set.notMem_empty _))]
    exact hbytes o ho

theorem Shows.map (h : Shows vm root T c) (hlive : frame ∈ vm.live)
    (hfoot : frame ∉ foot x86 (kPageTableLevels - 1) root T) {pte : BitVec 64}
    (hpte : pageTableEntryToPhysical pte = frame) (hmap : Remaps vm vm' root page (some pte))
    (hext : Extends vm vm' (kPageTableLevels - 1) root T T') {f : ℕ → BitVec 8}
    (hbytes : ∀ o < kPageSize, vm.byteAt frame o = f o) :
    Shows vm' root T' (Function.update c page (some f)) := by
  -- a live page that is no table stays so and keeps its words
  have hkeep : ∀ x ∈ vm.live, x ∉ foot x86 (kPageTableLevels - 1) root T →
      x ∈ vm'.live ∧ x ∉ foot x86 (kPageTableLevels - 1) root T' ∧ vm'.mem x = vm.mem x := by
    intro x hx hxT
    refine ⟨hext.grows.live x hx, ?_, hext.grows.mem x hx hxT⟩
    intro hxT'
    exact (hext.foot x hxT').elim hxT (fun hdead => hdead hx)
  refine ⟨hext.owns, ?_⟩
  intro page' hpage' g hg
  have hnow := hmap page' hpage'
  by_cases he : page' = page
  · subst he
    rw [if_pos rfl] at hnow
    rw [Function.update_self] at hg
    cases hg
    obtain ⟨hlive', hfoot', hmem'⟩ := hkeep frame hlive hfoot
    refine ⟨pte, hnow, by rwa [hpte], by rwa [hpte], ?_⟩
    intro o ho
    rw [hpte, byteAt_congr hmem']
    exact hbytes o ho
  · rw [if_neg he] at hnow
    rw [Function.update_of_ne he] at hg
    obtain ⟨pte', htranslate, hframe, hout, hold⟩ := h.bytes page' hpage' g hg
    obtain ⟨hlive', hfoot', hmem'⟩ := hkeep _ hframe hout
    refine ⟨pte', hnow.trans htranslate, hlive', hfoot', ?_⟩
    intro o ho
    rw [byteAt_congr hmem']
    exact hold o ho

theorem Shows.congr {d : PageContents} (h : Shows vm root T c)
    (hcd : ∀ page, IsCanonical page → d page = c page) : Shows vm root T d :=
  ⟨h.owns, fun page hpage f hf => h.bytes page hpage f ((hcd page hpage).symm.trans hf)⟩

theorem wp_mapsPage {Q : Bool → Vm → Prop} {va pa : Addr} {flags : BitVec 32}
    (h : wp (mapPage A root va pa flags) (fun _ vm' => Q true vm')
      (fun e vm' => e = .unexpected .kVmMapFailed ∧ Q false vm') vm) :
    wp (mapsPage A root va pa flags) Q (fun _ _ => False) vm := by
  revert h
  simp only [wp, mapsPage]
  cases mapPage A root va pa flags vm with
  | ok _ vm' => exact id
  | error e vm' =>
    rintro ⟨rfl, hQ⟩
    exact hQ

end Load

/-- The pages of the segment from `first` on are replaced. -/
def PageContents.loadFrom (elf : ElfImage) (p : Elf64Phdr) (first : Addr) (c : PageContents) :
    PageContents :=
  fun page => if first ≤ page ∧ page < p.endPage then some (p.pageBytes elf page) else c page

section Segment

variable {elf : ElfImage} {p : Elf64Phdr} {size : ℕ} {vm : Vm} {root page : Addr}
  {T : PageTree (kPageTableLevels - 1)} {c : PageContents}

theorem Elf64Phdr.InBounds.toNat_endPage (h : p.InBounds size) :
    p.endPage.toNat = (p.pVaddr.toNat + p.pMemsz.toNat + 4095) / 4096 * 4096 := by
  have hmemory := h.memory
  have hsum : (p.pVaddr + p.pMemsz).toNat = p.pVaddr.toNat + p.pMemsz.toNat := by
    rw [BitVec.toNat_add]
    exact Nat.mod_eq_of_lt (by omega)
  rw [Elf64Phdr.endPage, toNat_pageAlignUp (by omega), hsum]

theorem PageContents.loadFrom_next (haligned : page.toNat % 4096 = 0) (hlt : page < p.endPage)
    (hbound : p.endPage.toNat ≤ 2^47) {va : Addr} (hva : IsCanonical va) :
    c.loadFrom elf p page va = PageContents.loadFrom elf p (page + BitVec.ofNat 64 kPageSize)
      (Function.update c page (some (p.pageBytes elf page))) va := by
  unfold PageContents.loadFrom
  by_cases hlater : page + BitVec.ofNat 64 kPageSize ≤ va ∧ va < p.endPage
  · rw [if_pos hlater, if_pos ((next_page_iff haligned hlt hbound hva).mpr (Or.inr hlater))]
  · rw [if_neg hlater]
    by_cases he : va = page
    · rw [if_pos ((next_page_iff haligned hlt hbound hva).mpr (Or.inl he)), he,
        Function.update_self]
    · rw [if_neg, Function.update_of_ne he]
      intro hin
      exact ((next_page_iff haligned hlt hbound hva).mp hin).elim he hlater

theorem wp_loadPage (hin : p.InBounds size) (hsize : size ≤ 2^64) (h : Shows vm root T c)
    (hpage : page.toNat % 4096 = 0) (hlow : page.toNat < 2^47) {frame : Addr}
    (hframe : A.alloc vm.calls vm.live = some frame) :
    wp (mapsPage A root page frame p.flags)
      (fun r vm' => (r = true → vm'.shortfall = vm.shortfall ∧
          ∃ T', Shows vm' root T' (Function.update c page (some (p.pageBytes elf page)))) ∧
        (r = false → vm.shortfall < vm'.shortfall)) (fun _ _ => False)
      (fillPage elf p page frame { vm with calls := vm.calls + 1, live := frame :: vm.live }) := by
  obtain ⟨hisPage, -, hfresh⟩ := A.alloc_fresh _ _ _ hframe
  have hfill := h.fill hfresh elf p page (vm.calls + 1)
  obtain ⟨-, hlive, hcalls, -, -⟩ :=
    fillPage_frame elf p page frame { vm with calls := vm.calls + 1, live := frame :: vm.live }
  have hshort : (fillPage elf p page frame
      { vm with calls := vm.calls + 1, live := frame :: vm.live }).shortfall = vm.shortfall := by
    simp only [Vm.shortfall, hlive, hcalls, List.length_cons]
    omega
  have hcanon : IsCanonical page := ⟨hpage, Or.inl hlow⟩
  have hmem : frame ∈ (fillPage elf p page frame
      { vm with calls := vm.calls + 1, live := frame :: vm.live }).live := by
    rw [hlive]
    exact List.mem_cons_self ..
  have hbytes : ∀ o < kPageSize, (fillPage elf p page frame
      { vm with calls := vm.calls + 1, live := frame :: vm.live }).byteAt frame o =
        p.pageBytes elf page o := by
    intro o ho
    have hfile := hin.file
    have hfilesz := hin.filesz
    have hmemory := hin.memory
    exact byteAt_fillPage hlow (by omega) (by omega) ho
  have hfoot : frame ∉ foot x86 (kPageTableLevels - 1) root T := fun hmem =>
    hfresh (h.owns.live frame hmem)
  apply wp_mapsPage
  refine wp_mono (wp_and (wp_and (wp_mapPage A hfill.owns hcanon hisPage (flags_valid p))
    (wp_mapPage_extends A hfill.owns page frame p.flags))
    (wp_mapPage_shortfall A hfill.owns.root_nonnull page frame p.flags _)) ?_ ?_
  · rintro _ vm' ⟨⟨⟨pte, hphys, -, hmap⟩, ⟨T', hT'⟩, -⟩, hsame⟩
    refine ⟨fun _ => ⟨hsame.trans hshort, T', ?_⟩, by simp⟩
    exact hfill.map hmem hfoot hphys hmap hT' hbytes
  · rintro e vm' ⟨⟨-, he, -⟩, hmore⟩
    refine ⟨he, by simp, fun _ => ?_⟩
    omega

theorem wp_loadPages (hin : p.InBounds size) (hsize : size ≤ 2^64) (h : Shows vm root T c)
    {k fuel : ℕ} (hpage : page.toNat % 4096 = 0) (hend : p.endPage.toNat - page.toNat = 4096 * k)
    (hfuel : k ≤ fuel) :
    wp (loadPages A elf root p fuel page)
      (fun r vm' => (r = true → vm'.shortfall = vm.shortfall ∧
          ∃ T', Shows vm' root T' (c.loadFrom elf p page)) ∧
        (r = false → vm.shortfall < vm'.shortfall)) (fun _ _ => False) vm := by
  have hbound : p.endPage.toNat ≤ 2^47 := by
    have hmemory := hin.memory
    rw [hin.toNat_endPage]
    omega
  induction k generalizing vm page fuel T c with
  | zero =>
    have hstop : ¬ page < p.endPage := by
      rw [BitVec.lt_def]
      omega
    have hnone : Shows vm root T (c.loadFrom elf p page) := by
      apply h.congr
      intro va _
      rw [PageContents.loadFrom, if_neg]
      rintro ⟨hle, hlt⟩
      rw [BitVec.le_def] at hle
      rw [BitVec.lt_def] at hlt hstop
      omega
    cases fuel with
    | zero =>
      rw [loadPages, wp_pure]
      exact ⟨fun _ => ⟨rfl, T, hnone⟩, by simp⟩
    | succ fuel =>
      rw [loadPages, if_neg hstop, wp_pure]
      exact ⟨fun _ => ⟨rfl, T, hnone⟩, by simp⟩
  | succ k ih =>
    obtain ⟨fuel, rfl⟩ : ∃ n, fuel = n + 1 := ⟨fuel - 1, by omega⟩
    have hlt : page < p.endPage := by
      rw [BitVec.lt_def]
      omega
    have hnext : (page + BitVec.ofNat 64 kPageSize).toNat = page.toNat + 4096 :=
      toNat_add_pageSize (by omega)
    rw [loadPages, if_pos hlt, wp_bind]
    cases hframe : A.alloc vm.calls vm.live with
    | none =>
      rw [wp_of_ok (show alignedAlloc A vm = .ok none { vm with calls := vm.calls + 1 } by
        simp only [alignedAlloc, hframe]), wp_pure]
      refine ⟨by simp, fun _ => ?_⟩
      simp only [Vm.shortfall]
      omega
    | some frame =>
      rw [wp_of_ok (show alignedAlloc A vm = .ok (some frame)
        { vm with calls := vm.calls + 1, live := frame :: vm.live } by
          simp only [alignedAlloc, hframe]),
        wp_bind, wp_modify, wp_bind]
      refine (wp_loadPage A hin hsize h hpage (by omega) hframe).imp ?_
      rintro r vm₁ ⟨hgood, hbad⟩
      cases r with
      | false =>
        rw [if_neg Bool.false_ne_true, wp_pure]
        exact ⟨by simp, fun _ => hbad rfl⟩
      | true =>
        obtain ⟨hshort, T₁, hT₁⟩ := hgood rfl
        refine (ih hT₁ (by omega) (by omega) (by omega)).imp ?_
        rintro r vm' ⟨hrest, hfail⟩
        refine ⟨fun hr => ?_, fun hr => hshort ▸ hfail hr⟩
        obtain ⟨hsame, T', hT'⟩ := hrest hr
        exact ⟨hsame.trans hshort, T', hT'.congr fun va hva =>
          PageContents.loadFrom_next hpage hlt hbound hva⟩

end Segment

/-- The segments that are loaded, in the order of their headers. -/
def loadable (ps : List Elf64Phdr) : List Elf64Phdr := ps.filter fun p => p.pType = ptLoad

section Image

variable {elf : ElfImage} {size : ℕ} {vm : Vm} {root : Addr} {T : PageTree (kPageTableLevels - 1)}
  {c : PageContents}

theorem wp_loadSegments {ps : List Elf64Phdr} (hin : ∀ p ∈ loadable ps, p.InBounds size)
    (hsize : size ≤ 2^64) (h : Shows vm root T c) :
    wp (loadSegments A elf root ps)
      (fun r vm' => (r = true → vm'.shortfall = vm.shortfall ∧
          ∃ T', Shows vm' root T' ((loadable ps).foldl (PageContents.load elf) c)) ∧
        (r = false → vm.shortfall < vm'.shortfall)) (fun _ _ => False) vm := by
  induction ps generalizing vm T c with
  | nil =>
    rw [loadSegments, wp_pure]
    exact ⟨fun _ => ⟨rfl, T, h⟩, by simp⟩
  | cons p ps ih =>
    rw [loadSegments]
    by_cases hload : p.pType = ptLoad
    · have hcons : loadable (p :: ps) = p :: loadable ps :=
        List.filter_cons_of_pos (by simpa using hload)
      rw [hcons] at hin ⊢
      have hp := hin p (List.mem_cons_self ..)
      have hstart : p.startPage.toNat = p.pVaddr.toNat / 4096 * 4096 := toNat_pageAlign p.pVaddr
      have hend := hp.toNat_endPage
      rw [if_neg (not_not.mpr hload), wp_bind]
      refine (wp_loadPages A hp hsize h (by omega)
        (k := (p.endPage.toNat - p.startPage.toNat) / kPageSize)
        ?_ le_rfl).imp ?_
      · rw [kPageSize]
        omega
      rintro r vm₁ ⟨hgood, hbad⟩
      cases r with
      | false =>
        rw [if_neg Bool.false_ne_true, wp_pure]
        exact ⟨by simp, fun _ => hbad rfl⟩
      | true =>
        obtain ⟨hshort, T₁, hT₁⟩ := hgood rfl
        rw [if_pos rfl]
        have hrest := ih (fun q hq => hin q (List.mem_cons_of_mem _ hq)) hT₁
        rw [hshort] at hrest
        exact hrest
    · have hcons : loadable (p :: ps) = loadable ps :=
        List.filter_cons_of_neg (by simpa using hload)
      rw [hcons] at hin ⊢
      rw [if_pos hload]
      exact ih hin h

theorem foldl_load_cases (elf : ElfImage) (page : Addr) (ps : List Elf64Phdr) (c : PageContents) :
    (∃ q ∈ ps, q.Touches page ∧ ps.foldl (PageContents.load elf) c page =
      some (q.pageBytes elf page)) ∨
      (∀ q ∈ ps, ¬ q.Touches page) ∧ ps.foldl (PageContents.load elf) c page = c page := by
  induction ps generalizing c with
  | nil => exact Or.inr ⟨by simp, rfl⟩
  | cons p ps ih =>
    rw [List.foldl_cons]
    obtain ⟨q, hq, htouch, hbytes⟩ | ⟨hnone, hkeep⟩ := ih (c.load elf p)
    · exact Or.inl ⟨q, List.mem_cons_of_mem _ hq, htouch, hbytes⟩
    · by_cases htouch : p.Touches page
      · exact Or.inl ⟨p, List.mem_cons_self .., htouch, hkeep.trans (if_pos htouch)⟩
      · refine Or.inr ⟨?_, hkeep.trans (if_neg htouch)⟩
        intro q hq
        obtain rfl | hq := List.mem_cons.mp hq
        · exact htouch
        · exact hnone q hq

theorem indices_pageAlign (va : Addr) : indices (pageAlign va) = indices va := by
  funext level
  rw [indices, indices, toNat_virtualPageNumber, toNat_virtualPageNumber, toNat_pageAlign,
    Nat.pow_add,
    ← Nat.div_div_eq_div_mul, ← Nat.div_div_eq_div_mul, Nat.mul_div_cancel _ (by decide)]

theorem Shows.loadedByte (h : Shows vm root T c) {va : Addr} (hva : va.toNat < 2^47)
    {f : ℕ → BitVec 8}
    (hf : c (pageAlign va) = some f) : loadedByte vm root va = some (f (va.toNat % 4096)) := by
  have hpage := toNat_pageAlign va
  obtain ⟨pte, htranslate, -, -, hbytes⟩ :=
    h.bytes (pageAlign va) ⟨by omega, Or.inl (by omega)⟩ f hf
  rw [Memory.translate, indices_pageAlign] at htranslate
  rw [Task.loadedByte, Memory.translate, htranslate, Option.map_some]
  exact congrArg some (hbytes _ (Nat.mod_lt _ (by decide)))

end Image

section Segments

variable {elf : ElfImage} {size : ℕ} {p q : Elf64Phdr} {k : ℕ}

theorem Elf64Phdr.InBounds.toNat_address (h : p.InBounds size) (hk : k < p.pMemsz.toNat) :
    (p.pVaddr + BitVec.ofNat 64 k).toNat = p.pVaddr.toNat + k := by
  have hmemory := h.memory
  rw [BitVec.toNat_add, BitVec.toNat_ofNat]
  omega

theorem Elf64Phdr.InBounds.touches (h : p.InBounds size) (hk : k < p.pMemsz.toNat) :
    p.Touches (pageAlign (p.pVaddr + BitVec.ofNat 64 k)) := by
  rw [Elf64Phdr.Touches, BitVec.le_def, BitVec.lt_def, toNat_pageAlign, h.toNat_address hk,
    h.toNat_endPage, Elf64Phdr.startPage, toNat_pageAlign]
  omega

theorem Elf64Phdr.InBounds.toNat_page_add (h : p.InBounds size) (hk : k < p.pMemsz.toNat) :
    (pageAlign (p.pVaddr + BitVec.ofNat 64 k)).toNat + (p.pVaddr + BitVec.ofNat 64 k).toNat % 4096 =
      p.pVaddr.toNat + k := by
  rw [toNat_pageAlign, h.toNat_address hk]
  omega

theorem Elf64Phdr.InBounds.pageBytes_self (h : p.InBounds size) (hk : k < p.pMemsz.toNat) :
    p.pageBytes elf (pageAlign (p.pVaddr + BitVec.ofNat 64 k))
      ((p.pVaddr + BitVec.ofNat 64 k).toNat % 4096) = p.byte elf k := by
  rw [Elf64Phdr.pageBytes, h.toNat_page_add hk, Elf64Phdr.byte, Nat.add_sub_cancel_left]
  by_cases hfile : k < p.pFilesz.toNat
  · rw [if_pos hfile, if_pos (by omega)]
  · rw [if_neg hfile, if_neg (by omega)]

theorem Elf64Phdr.InBounds.pageBytes_apart (h : p.InBounds size) (hq : q.InBounds size)
    (hapart : p.Apart q) (hk : k < p.pMemsz.toNat) :
    q.pageBytes elf (pageAlign (p.pVaddr + BitVec.ofNat 64 k))
      ((p.pVaddr + BitVec.ofNat 64 k).toNat % 4096) = 0 := by
  have hout := hapart (p.pVaddr.toNat + k)
  have hfilesz := hq.filesz
  rw [Elf64Phdr.pageBytes, h.toNat_page_add hk, if_neg]
  omega

end Segments

/-- Every byte of every loadable segment is found where the program expects it. -/
def ImageLoaded (elf : ElfImage) (vm : Vm) (root : Addr) : Prop :=
  ∀ p ∈ loadable (phdrs elf), ∀ k < p.pMemsz.toNat,
    loadedByte vm root (p.pVaddr + BitVec.ofNat 64 k) = some (p.byte elf k)

/-- The file has nothing but zeros for the pages of a segment that a later segment touches. -/
def PagesKept (elf : ElfImage) : Prop :=
  ∀ pre p post, loadable (phdrs elf) = pre ++ p :: post → ∀ k < p.pFilesz.toNat,
    (∃ q ∈ post, q.Touches (pageAlign (p.pVaddr + BitVec.ofNat 64 k))) →
    elf (p.pOffset.toNat + k) = 0

theorem loadedByte_eq {elf : ElfImage} {size : ℕ} {vm : Vm} {root : Addr}
    {T : PageTree (kPageTableLevels - 1)}
    {segments pre post : List Elf64Phdr} {p : Elf64Phdr} (hsegments : segments = pre ++ p :: post)
    (hin : ∀ q ∈ segments, q.InBounds size) (hapart : segments.Pairwise Elf64Phdr.Apart)
    (h : Shows vm root T (segments.foldl (PageContents.load elf) fun _ => none)) {k : ℕ}
    (hk : k < p.pMemsz.toNat) :
    loadedByte vm root (p.pVaddr + BitVec.ofNat 64 k) =
      some (if ∃ q ∈ post, q.Touches (pageAlign (p.pVaddr + BitVec.ofNat 64 k)) then 0
        else p.byte elf k) := by
  subst hsegments
  have hp : p.InBounds size := hin p (by simp)
  have hmemory := hp.memory
  have hlow : (p.pVaddr + BitVec.ofNat 64 k).toNat < 2^47 := by
    rw [hp.toNat_address hk]
    omega
  rw [List.foldl_append, List.foldl_cons] at h
  obtain ⟨q, hq, htouch, hbytes⟩ | ⟨hnone, hkeep⟩ := foldl_load_cases elf
    (pageAlign (p.pVaddr + BitVec.ofNat 64 k)) post
    ((pre.foldl (PageContents.load elf) fun _ => none).load elf p)
  · have hpq : p.Apart q := List.rel_of_pairwise_cons (List.pairwise_append.mp hapart).2.1 hq
    rw [h.loadedByte hlow hbytes, if_pos ⟨q, hq, htouch⟩,
      hp.pageBytes_apart (hin q (by simp [hq])) hpq hk]
  · rw [h.loadedByte hlow (hkeep.trans (if_pos (hp.touches hk))), if_neg, hp.pageBytes_self hk]
    rintro ⟨q, hq, htouch⟩
    exact hnone q hq htouch

theorem imageLoaded_iff {elf : ElfImage} {size : ℕ} {vm : Vm} {root : Addr}
    {T : PageTree (kPageTableLevels - 1)} (hin : ∀ p ∈ loadable (phdrs elf), p.InBounds size)
    (hapart : (loadable (phdrs elf)).Pairwise Elf64Phdr.Apart)
    (h : Shows vm root T ((loadable (phdrs elf)).foldl (PageContents.load elf) fun _ => none)) :
    ImageLoaded elf vm root ↔ PagesKept elf := by
  constructor
  · intro hloaded pre p post hsegments k hk hlater
    have hp : p ∈ loadable (phdrs elf) := hsegments ▸ by simp
    have hmem : k < p.pMemsz.toNat := lt_of_lt_of_le hk (hin p hp).filesz
    have hbyte := loadedByte_eq hsegments hin hapart h hmem
    rw [hloaded p hp k hmem, if_pos hlater, Option.some_inj, Elf64Phdr.byte, if_pos hk] at hbyte
    exact hbyte
  · intro hkept p hp k hk
    obtain ⟨pre, post, hsegments⟩ := List.append_of_mem hp
    rw [loadedByte_eq hsegments hin hapart h hk]
    split
    · rename_i hlater
      rw [Elf64Phdr.byte]
      split
      · rename_i hfile
        rw [hkept pre p post hsegments k hfile hlater]
      · rfl
    · rfl

/-- `LoadElf` with every allocation answered returns the entry, and the memory image is right
if and only if no non-zero byte of the file is for a page that a later segment touches. -/
theorem loadElf_image_iff (elf : ElfImage) (size : ℕ) (hsize : size ≤ 2^64)
    (hmagic : hasElfMagic elf = true) (hin : ∀ p ∈ loadable (phdrs elf), p.InBounds size)
    (hapart : (loadable (phdrs elf)).Pairwise Elf64Phdr.Apart) {vm : Vm} {root : Addr}
    (hzero : ∀ i < kEntriesPerTable, vm.mem root i = 0) (hlive : root ∈ vm.live)
    (hroot : root ≠ 0) :
    ∃ r vm', loadElf A elf root vm = .ok r vm' ∧ (vm'.shortfall = vm.shortfall →
      r = eEntry elf ∧ (ImageLoaded elf vm' root ↔ PagesKept elf)) := by
  have hempty : Shows vm root _ fun _ => none := ⟨Owns.blank hzero hlive hroot, by simp⟩
  apply wp.returns
  rw [loadElf, if_pos hmagic, wp_bind]
  refine (wp_loadSegments A hin hsize hempty).imp ?_
  rintro r vm' ⟨hgood, hbad⟩
  cases r with
  | false =>
    rw [if_neg Bool.false_ne_true, wp_pure]
    intro hsame
    have hless := hbad rfl
    omega
  | true =>
    obtain ⟨-, T', hT'⟩ := hgood rfl
    rw [if_pos rfl, wp_pure]
    intro _
    exact ⟨rfl, imageLoaded_iff hin hapart hT'⟩

/-- An image with segments of one byte at 0x400000 and at 0x400000 + 256 `place`. -/
def twoSegments (place : BitVec 8) : ElfImage := fun i =>
  (([(0, 0x7f), (1, 0x45), (2, 0x4c), (3, 0x46), (26, 0x40), (32, 64), (56, 2),
    (64, 1), (68, 5), (73, 1), (82, 0x40), (96, 1), (104, 1),
    (120, 1), (124, 6), (128, 1), (129, 1), (137, place), (138, 0x40), (152, 1), (160, 1),
    (256, 0xAA), (257, 0xBB)] : List (ℕ × BitVec 8)).lookup i).getD 0

def firstSegment : Elf64Phdr := ⟨1, 5, 0x100, 0x400000, 1, 1⟩

def secondSegment (place : BitVec 8) : Elf64Phdr :=
  ⟨1, 6, 0x101, 0x400000 + 256 * place.setWidth 64, 1, 1⟩

theorem loadable_twoSegments : loadable (phdrs (twoSegments 0x08)) =
      [firstSegment, secondSegment 0x08] ∧
    loadable (phdrs (twoSegments 0x10)) = [firstSegment, secondSegment 0x10] := by
  decide +kernel

theorem inBounds_twoSegments {place : BitVec 8} (hplace : place = 0x08 ∨ place = 0x10) :
    ∀ p ∈ [firstSegment, secondSegment place], p.InBounds 258 := by
  have hfirst : firstSegment.InBounds 258 := ⟨by decide, by decide, by decide⟩
  have hsecond : (secondSegment place).InBounds 258 := by
    obtain rfl | rfl := hplace <;> exact ⟨by decide, by decide, by decide⟩
  simp [hfirst, hsecond]

theorem apart_twoSegments {place : BitVec 8} (hplace : place = 0x08 ∨ place = 0x10) :
    [firstSegment, secondSegment place].Pairwise Elf64Phdr.Apart := by
  have hfirst : firstSegment.pVaddr.toNat + firstSegment.pMemsz.toNat ≤
      (secondSegment place).pVaddr.toNat := by
    obtain rfl | rfl := hplace <;> decide
  have hapart : firstSegment.Apart (secondSegment place) := by
    intro x hx
    omega
  simp [hapart]

/-- Two segments on pages of their own. -/
theorem loadElf_image_iff_example : ∃ r vm',
    loadElf pageSequence (twoSegments 0x10) 0x1000 zeroedRoot = .ok r vm' ∧ r = 0x400000 ∧
      ImageLoaded (twoSegments 0x10) vm' 0x1000 := by
  have hsegments := loadable_twoSegments.2
  have hkept : PagesKept (twoSegments 0x10) := by
    intro pre p post hsplit k hk hlater
    obtain ⟨q, hq, htouch⟩ := hlater
    rw [hsegments] at hsplit
    -- only the first segment has one after it
    obtain ⟨rfl, rfl, rfl⟩ : pre = [] ∧ p = firstSegment ∧ post = [secondSegment 0x10] := by
      cases pre with
      | nil => simpa [eq_comm] using hsplit
      | cons a pre =>
        cases pre with
        | nil =>
          obtain ⟨-, -, rfl⟩ : firstSegment = a ∧ secondSegment 0x10 = p ∧ [] = post := by
            simpa using hsplit
          simp at hq
        | cons b pre => simp at hsplit
    obtain rfl := List.mem_singleton.mp hq
    have hzero : k = 0 := Nat.lt_one_iff.mp hk
    subst hzero
    exact absurd htouch (by decide)
  have hroot : ∀ i < kEntriesPerTable, zeroedRoot.mem 0x1000 i = 0 := fun _ _ => rfl
  obtain ⟨r, vm', hrun, himage⟩ := loadElf_image_iff pageSequence (twoSegments 0x10) 258 (by decide)
    (by decide) (hsegments ▸ inBounds_twoSegments (Or.inr rfl))
    (hsegments ▸ apart_twoSegments (Or.inr rfl)) hroot (by decide) (by decide)
  have hcheck : wp (loadElf pageSequence (twoSegments 0x10) 0x1000)
      (fun r vm => r = 0x400000 ∧ vm.shortfall = zeroedRoot.shortfall) (fun _ _ => False)
      zeroedRoot := by decide +kernel
  obtain ⟨hentry, hshort⟩ := hcheck.of_ok hrun
  exact ⟨r, vm', hrun, hentry, (himage hshort).2.mpr hkept⟩

/-- Two segments on one page, as linkers produce them: the program finds 0 for the first one's
byte 0xAA, because the page has been replaced by a new one for the second. -/
theorem loadElf_shared_page : hasElfMagic (twoSegments 0x08) = true ∧
    (∀ p ∈ loadable (phdrs (twoSegments 0x08)), p.InBounds 258) ∧
    (loadable (phdrs (twoSegments 0x08))).Pairwise Elf64Phdr.Apart ∧
    ∃ vm', loadElf pageSequence (twoSegments 0x08) 0x1000 zeroedRoot =
        .ok (eEntry (twoSegments 0x08)) vm' ∧
      vm'.shortfall = zeroedRoot.shortfall ∧ loadedByte vm' 0x1000 0x400000 = some 0 ∧
      firstSegment.byte (twoSegments 0x08) 0 = 0xAA ∧
      ¬ ImageLoaded (twoSegments 0x08) vm' 0x1000 := by
  have hsegments := loadable_twoSegments.1
  have hcheck : wp (loadElf pageSequence (twoSegments 0x08) 0x1000)
      (fun r vm => r = eEntry (twoSegments 0x08) ∧ vm.shortfall = zeroedRoot.shortfall ∧
        loadedByte vm 0x1000 0x400000 = some 0) (fun _ _ => False) zeroedRoot := by
    decide +kernel
  obtain ⟨_, vm', hrun, rfl, hshort, hzero⟩ := hcheck.returns
  have hbyte : firstSegment.byte (twoSegments 0x08) 0 = 0xAA := by decide +kernel
  refine ⟨by decide +kernel, hsegments ▸ inBounds_twoSegments (Or.inl rfl),
    hsegments ▸ apart_twoSegments (Or.inl rfl), vm', hrun, hshort, hzero, hbyte, ?_⟩
  intro hloaded
  have hfound := hloaded firstSegment (hsegments ▸ List.mem_cons_self ..) 0 (by decide)
  rw [hbyte] at hfound
  exact absurd (hzero.symm.trans hfound) (by decide)

end NaiLongKernel.Task
