import NaiLongKernel.Fdt.RegProperty

/-!
# Queries that stay inside the properties

The lengths of properties are checked before numbers are read, but strings are compared and
printed up to their null byte. A property without one is read past its end when it is a
prefix of the string it is compared with, and always when it is printed.
-/
namespace NaiLongKernel.Fdt

open Foundation Libc

variable {lib : Libfdt} {data literal : List Byte} {s : Unit} {E : FdtStop → Unit → Prop}

/-! ## Strings -/

theorem getElem?_eq_none_of_drop {i : ℕ} (h : data.drop i = []) : data[i]? = none :=
  List.getElem?_eq_none (List.drop_eq_nil_iff.mp h)

theorem getElem?_of_drop {i : ℕ} {b : Byte} {rest : List Byte} (h : data.drop i = b :: rest) :
    data[i]? = some b ∧ data.drop (i + 1) = rest := by
  constructor
  · rw [← List.head?_drop, h]
    rfl
  · rw [← List.tail_drop, h]
    rfl

/-- A property that is a prefix of the literal ends before the comparison does. -/
theorem wp_strcmpFrom_prefix {i : ℕ} {Q : ℤ → Unit → Prop} (hliteral : 0 ∉ literal)
    (h : data.drop i <+: literal) : wp (strcmpFrom data i literal) Q E s ↔ E .outside s := by
  induction literal generalizing i with
  | nil =>
    have hnone := getElem?_eq_none_of_drop (List.prefix_nil.mp h)
    simp [strcmpFrom, readByte, hnone]
  | cons c literal ih =>
    cases hdrop : data.drop i with
    | nil =>
      have hnone := getElem?_eq_none_of_drop hdrop
      simp [strcmpFrom, readByte, hnone]
    | cons b rest =>
      obtain ⟨hb, hrest⟩ := getElem?_of_drop hdrop
      rw [hdrop, List.cons_prefix_cons] at h
      obtain ⟨rfl, h⟩ := h
      rw [List.mem_cons, not_or] at hliteral
      rw [strcmpFrom, wp_bind, wp_readByte hb, wp_ite, if_pos ⟨Ne.symm hliteral.1, rfl⟩]
      exact ih hliteral.2 (hrest ▸ h)

/-- Any other property decides the comparison: it is equal if the literal and a null byte
begin it. -/
theorem wp_strcmpFrom {i : ℕ} (hliteral : 0 ∉ literal) (h : ¬data.drop i <+: literal) :
    ∃ r, (r = 0 ↔ literal ++ [0] <+: data.drop i) ∧ ∀ (Q : ℤ → Unit → Prop) (E s),
      wp (strcmpFrom data i literal) Q E s ↔ Q r s := by
  induction literal generalizing i with
  | nil =>
    cases hdrop : data.drop i with
    | nil => exact absurd (hdrop ▸ List.nil_prefix) h
    | cons b rest =>
      obtain ⟨hb, -⟩ := getElem?_of_drop hdrop
      refine ⟨b.toNat, ?_, fun Q E s => ?_⟩
      · have hzero : (b.toNat : ℤ) = 0 ↔ 0 = b := by
          rw [Int.natCast_eq_zero, eq_comm (a := 0)]
          exact ⟨fun h => BitVec.eq_of_toNat_eq h, fun h => by rw [h]; rfl⟩
        rw [hzero, List.nil_append, List.cons_prefix_cons]
        simp
      · rw [strcmpFrom, wp_bind, wp_readByte hb, wp_pure]
  | cons c literal ih =>
    cases hdrop : data.drop i with
    | nil => exact absurd (hdrop ▸ List.nil_prefix) h
    | cons b rest =>
      obtain ⟨hb, hrest⟩ := getElem?_of_drop hdrop
      rw [List.mem_cons, not_or] at hliteral
      by_cases hbc : b = c
      · subst hbc
        rw [hdrop, List.cons_prefix_cons, ← hrest] at h
        obtain ⟨r, hr, hwp⟩ := ih hliteral.2 (fun hpre => h ⟨rfl, hpre⟩)
        refine ⟨r, ?_, fun Q E s => ?_⟩
        · rw [hr, hrest, List.cons_append, List.cons_prefix_cons]
          simp
        · rw [strcmpFrom, wp_bind, wp_readByte hb, wp_ite, if_pos ⟨Ne.symm hliteral.1, rfl⟩, hwp]
      · refine ⟨b.toNat - c.toNat, ?_, fun Q E s => ?_⟩
        · have hne : b.toNat ≠ c.toNat := fun heq => hbc (BitVec.eq_of_toNat_eq heq)
          rw [List.cons_append, List.cons_prefix_cons]
          constructor
          · intro hzero
            omega
          · exact fun hpre => absurd hpre.1.symm hbc
        · rw [strcmpFrom, wp_bind, wp_readByte hb, wp_ite, if_neg fun hand => hbc hand.2, wp_pure]

theorem wp_strcmp_prefix {Q : ℤ → Unit → Prop} (hliteral : 0 ∉ literal) (h : data <+: literal) :
    wp (strcmp data literal) Q E s ↔ E .outside s :=
  wp_strcmpFrom_prefix hliteral h

theorem wp_strcmp (hliteral : 0 ∉ literal) (h : ¬data <+: literal) :
    ∃ r, (r = 0 ↔ literal ++ [0] <+: data) ∧ ∀ (Q : ℤ → Unit → Prop) (E s),
      wp (strcmp data literal) Q E s ↔ Q r s :=
  wp_strcmpFrom (i := 0) hliteral h

theorem wp_printString {Q : Unit → Unit → Prop} (h : 0 ∈ data) :
    wp (printString data) Q E s ↔ Q () s := by
  induction data with
  | nil => cases h
  | cons b rest ih =>
    rw [printString, wp_ite]
    split
    · exact wp_pure _
    · rename_i hb
      exact ih ((List.mem_cons.mp h).resolve_left (Ne.symm hb))

theorem wp_printString_unterminated {Q : Unit → Unit → Prop} (h : 0 ∉ data) :
    wp (printString data) Q E s ↔ E .outside s := by
  induction data with
  | nil => exact wp_throw _
  | cons b rest ih =>
    rw [List.mem_cons, not_or] at h
    rw [printString, wp_ite, if_neg (Ne.symm h.1)]
    exact ih h.2

/-! ## Programs that stay inside -/

/-- The program returns or refuses: no byte outside a property is read, no sum overflows and
no loop runs on. -/
def Inside {α : Type} (x : FdtM α) : Prop :=
  wp x (fun _ _ => True) (fun stop _ => ∃ code, stop = .refused code) ()

namespace Inside

variable {α β : Type} {x : FdtM α} {f : α → FdtM β}

theorem bind_iff (hf : ∀ a, Inside (f a)) : Inside (x >>= f) ↔ Inside x := by
  rw [Inside, wp_bind]
  exact wp_congr fun a _ => iff_of_true (hf a) trivial

theorem bind (hx : Inside x) (hf : ∀ a, Inside (f a)) : Inside (x >>= f) := (bind_iff hf).mpr hx

theorem pure (a : α) : Inside (pure a : FdtM α) := (wp_pure _).mpr trivial

theorem refused (code : ErrorCode) : Inside (throw (.refused code) : FdtM α) :=
  (wp_throw _).mpr ⟨code, rfl⟩

theorem refused_bind (code : ErrorCode) (f : α → FdtM β) : Inside (throw (.refused code) >>= f) :=
  (wp_bind _ _ _).mpr ((wp_throw _).mpr ⟨code, rfl⟩)

theorem ite {c : Prop} [Decidable c] {y : FdtM α} (hx : c → Inside x) (hy : ¬c → Inside y) :
    Inside (if c then x else y) := by
  split
  · exact hx ‹_›
  · exact hy ‹_›

theorem checkOffset (offset : ℤ) : Inside (checkOffset offset) :=
  wp_checkOffset (fun _ => ⟨_, rfl⟩) fun _ => trivial

theorem loadBeU32 {off : ℕ} (h : off + 4 ≤ data.length) : Inside (loadBeU32 data off) :=
  (wp_loadBeU32 h).mpr trivial

theorem loadBeU64 {off : ℕ} (h : off + 8 ≤ data.length) : Inside (loadBeU64 data off) :=
  (wp_loadBeU64 h).mpr trivial

theorem needProperty {offset : ℤ} {name : String} {f : List Byte → FdtM β}
    (h : ∀ data, lib.getProperty offset name = some data → Inside (f data)) :
    Inside (needProperty lib offset name >>= f) := by
  rw [Inside, wp_bind]
  exact wp_needProperty (fun _ => ⟨_, rfl⟩) h

theorem regPairOrZero (off : ℕ) : Inside (regPairOrZero data off) :=
  ite (fun h => (loadBeU64 (by omega)).bind fun _ => (loadBeU64 (by omega)).bind fun _ => pure _)
    fun _ => pure _

theorem validateId (offset : ℤ) (name : String) (expected : BitVec 64) :
    Inside (validateId lib offset name expected) := by
  rw [Fdt.validateId]
  cases lib.getProperty offset name with
  | none => exact pure _
  | some data =>
    refine ite (fun h => ?_) fun _ => pure _
    exact (loadBeU32 (by omega)).bind fun id => ite (fun _ => refused _) fun _ => pure _

theorem tripletLoop {fuel off : ℕ} (hlen : data.length + 12 < 2 ^ 31)
    (hfuel : data.length < off + fuel) (hoff : off ≤ data.length) :
    Inside (tripletLoop data fuel off) := by
  induction fuel generalizing off with
  | zero => omega
  | succ fuel ih =>
    have hint : off + kTripletBytes < 2 ^ 31 := by
      rw [kTripletBytes]
      omega
    rw [Inside, Fdt.tripletLoop, wp_bind, wp_addInt hint, wp_ite]
    split
    · rename_i htriplet
      rw [kTripletBytes] at htriplet
      rw [wp_bind, wp_loadBeU32 (by omega), wp_bind, wp_loadBeU32 (by omega), wp_bind,
        wp_loadBeU32 (by omega), wp_bind, wp_loadBeU32 (by omega), wp_bind, wp_addInt hint]
      exact ih (by rw [kTripletBytes]; omega) htriplet
    · exact (wp_pure _).mpr trivial

theorem cell (cell : Option ℕ) : Inside (match cell with
    | none => return 0
    | some cell =>
      if (cell + 1) * 4 ≤ data.length then
        return (← Fdt.loadBeU32 data (cell * 4)).setWidth 64
      else
        return 0 : FdtM (BitVec 64)) := by
  cases cell with
  | none => exact pure _
  | some cell => exact ite (fun h => (loadBeU32 (by omega)).bind fun _ => pure _) fun _ => pure _

end Inside

/-! ## The queries -/

inductive FdtQuery where
  | getCoreCount
  | checkPSCI
  | getMemory
  | getSerial
  | getTimebaseFrequency
  | getGIC
  | getAarch64Intid (compatible : List Byte)
  | getPlic

/-- The query without its result. -/
def FdtQuery.exec (lib : Libfdt) (debug : Bool) : FdtQuery → FdtM Unit
  | getCoreCount => do let _ ← Fdt.getCoreCount lib
  | checkPSCI => Fdt.checkPSCI lib
  | getMemory => do let _ ← Fdt.getMemory lib
  | getSerial => do let _ ← Fdt.getSerial lib
  | getTimebaseFrequency => do let _ ← Fdt.getTimebaseFrequency lib
  | getGIC => do let _ ← Fdt.getGIC lib
  | getAarch64Intid compatible => do let _ ← Fdt.getAarch64Intid lib debug compatible
  | getPlic => do let _ ← Fdt.getPlic lib

/-- The nodes of the tree behind a node, in the order of `fdt_next_node`. -/
inductive Walked (lib : Libfdt) : ℤ → ℤ → Prop where
  | first {start : ℤ} : 0 ≤ lib.nextNode start → Walked lib start (lib.nextNode start)
  | later {start n : ℤ} : 0 ≤ lib.nextNode start → Walked lib (lib.nextNode start) n →
      Walked lib start n

/-- A status that says that the device is there. -/
def Enabled (status : List Byte) : Prop :=
  text "okay" ++ [0] <+: status ∨ text "ok" ++ [0] <+: status

/-- The compatible nodes behind a node, up to the first one that is enabled. -/
inductive Examined (lib : Libfdt) (compatible : List Byte) : ℤ → ℤ → Prop where
  | first {start : ℤ} : 0 ≤ lib.nodeOffsetByCompatible start compatible →
      Examined lib compatible start (lib.nodeOffsetByCompatible start compatible)
  | later {start n : ℤ} {status : List Byte} : 0 ≤ lib.nodeOffsetByCompatible start compatible →
      lib.getProperty (lib.nodeOffsetByCompatible start compatible) "status" = some status →
      ¬Enabled status → Examined lib compatible (lib.nodeOffsetByCompatible start compatible) n →
      Examined lib compatible start n

/-- The strings that the query looks at end, as far as it reads them. -/
def FdtQuery.Terminated (lib : Libfdt) : FdtQuery → Prop
  | getCoreCount => ∀ n type, Walked lib (-1) n →
      lib.getProperty n "device_type" = some type → ¬type <+: text "cpu"
  | checkPSCI => 0 ≤ lib.pathOffset (text "/psci") → ∀ method,
      lib.getProperty (lib.pathOffset (text "/psci")) "method" = some method → 0 ∈ method
  | getAarch64Intid compatible => ∀ n status, Examined lib compatible (-1) n →
      lib.getProperty n "status" = some status → ¬status <+: text "okay"
  | _ => True

theorem inside_countLoop_iff {fuel count : ℕ} {start : ℤ} (hstart : start < lib.totalsize)
    (hfuel : lib.totalsize - start ≤ fuel) :
    Inside (countLoop lib (text "cpu") fuel start count) ↔ ∀ n type, Walked lib start n →
      lib.getProperty n "device_type" = some type → ¬type <+: text "cpu" := by
  induction fuel generalizing start count with
  | zero => omega
  | succ fuel ih =>
    rw [countLoop]
    by_cases hnext : lib.nextNode start < 0
    · rw [if_pos hnext]
      refine iff_of_true (.ite (fun _ => .refused _) fun _ => .pure _) ?_
      intro n type hwalked
      cases hwalked <;> omega
    · have hpos : 0 ≤ lib.nextNode start := by omega
      obtain ⟨hgrows, hlt⟩ := lib.nextNode_grows hpos
      have hrest : ∀ count, Inside (countLoop lib (text "cpu") fuel (lib.nextNode start) count) ↔
          ∀ n type, Walked lib (lib.nextNode start) n →
            lib.getProperty n "device_type" = some type → ¬type <+: text "cpu" :=
        fun count => ih hlt (by omega)
      have hwalk : (∀ n type, Walked lib start n →
            lib.getProperty n "device_type" = some type → ¬type <+: text "cpu") ↔
          (∀ type, lib.getProperty (lib.nextNode start) "device_type" = some type →
            ¬type <+: text "cpu") ∧
          ∀ n type, Walked lib (lib.nextNode start) n →
            lib.getProperty n "device_type" = some type → ¬type <+: text "cpu" := by
        constructor
        · exact fun h => ⟨fun type => h _ type (.first hpos),
            fun n type hn => h n type (.later hpos hn)⟩
        · rintro ⟨hfirst, hlater⟩ n type hn
          cases hn with
          | first => exact hfirst type
          | later _ hn => exact hlater n type hn
      rw [if_neg hnext, hwalk]
      cases hprop : lib.getProperty (lib.nextNode start) "device_type" with
      | none =>
        rw [hrest]
        simp
      | some type =>
        simp only [Option.some.injEq, forall_eq']
        have hcpu : (0 : Byte) ∉ text "cpu" := by decide
        by_cases hstarts : type <+: text "cpu"
        · rw [Inside, wp_bind, wp_strcmp_prefix hcpu hstarts]
          simp [hstarts]
        · obtain ⟨r, -, hwp⟩ := wp_strcmp hcpu hstarts
          rw [Inside, wp_bind, hwp, ← Inside, and_iff_right hstarts]
          split
          · exact hrest _
          · exact hrest _

theorem inside_enabledLoop_iff {compatible : List Byte} {fuel : ℕ} {start : ℤ}
    (hstart : start < lib.totalsize) (hfuel : lib.totalsize - start ≤ fuel) :
    Inside (enabledLoop lib compatible fuel start) ↔ ∀ n status,
      Examined lib compatible start n → lib.getProperty n "status" = some status →
        ¬status <+: text "okay" := by
  induction fuel generalizing start with
  | zero => omega
  | succ fuel ih =>
    rw [enabledLoop]
    by_cases hnext : lib.nodeOffsetByCompatible start compatible < 0
    · rw [checkOffset, if_pos hnext]
      refine iff_of_true (Inside.refused_bind _ _) ?_
      intro n status hexamined
      cases hexamined <;> omega
    · have hpos : 0 ≤ lib.nodeOffsetByCompatible start compatible := by omega
      obtain ⟨hgrows, hlt⟩ := lib.compatible_grows hpos
      rw [checkOffset, if_neg hnext, pure_bind]
      have hrest := ih hlt (by omega)
      generalize hnode : lib.nodeOffsetByCompatible start compatible = node at *
      have hfirst : Examined lib compatible start node := hnode ▸ .first (hnode ▸ hpos)
      cases hprop : lib.getProperty node "status" with
      | none =>
        refine iff_of_true (Inside.pure _) ?_
        -- a node without a status is enabled
        intro n status hexamined hstatus
        cases hexamined with
        | first =>
          rw [hnode, hprop] at hstatus
          cases hstatus
        | later _ hother =>
          rw [hnode, hprop] at hother
          cases hother
      | some status =>
        have hokay : (0 : Byte) ∉ text "okay" := by decide
        have hok : (0 : Byte) ∉ text "ok" := by decide
        dsimp only
        by_cases hstarts : status <+: text "okay"
        · rw [Inside, wp_bind, wp_strcmp_prefix hokay hstarts]
          refine iff_of_false (by simp) fun h => h node status hfirst hprop hstarts
        · have hstarts' : ¬status <+: text "ok" := by
            have hlonger : text "ok" <+: text "okay" := by decide
            exact fun h => hstarts (h.trans hlonger)
          obtain ⟨r, hr, hwp⟩ := wp_strcmp hokay hstarts
          obtain ⟨r', hr', hwp'⟩ := wp_strcmp hok hstarts'
          have hdecided : ∀ n status', Examined lib compatible start n →
              lib.getProperty n "status" = some status' →
              n = node ∧ status' = status ∨
                ¬Enabled status ∧ Examined lib compatible node n := by
            intro n status' hn hstatus'
            cases hn with
            | first =>
              rw [hnode] at hstatus' ⊢
              exact Or.inl ⟨rfl, Option.mem_unique hstatus' hprop⟩
            | later _ hother hnot hn =>
              rw [hnode] at hother hn
              obtain rfl := Option.mem_unique hother hprop
              exact Or.inr ⟨hnot, hn⟩
          rw [Inside, wp_bind, hwp, wp_ite, wp_bind, hwp', wp_ite, wp_pure]
          by_cases henabled : Enabled status
          · have htrue : (if r = 0 then True else if r' = 0 then True
                else wp (enabledLoop lib compatible fuel node) (fun _ _ => True)
                  (fun stop _ => ∃ code, stop = .refused code) ()) := by
              rcases henabled with h | h
              · rw [if_pos (hr.mpr h)]
                trivial
              · rw [if_pos (hr'.mpr h)]
                split <;> trivial
            refine iff_of_true htrue ?_
            intro n status' hn hstatus'
            rcases hdecided n status' hn hstatus' with ⟨-, rfl⟩ | ⟨hnot, -⟩
            · exact hstarts
            · exact absurd henabled hnot
          · have h0 : r ≠ 0 := fun h => henabled (Or.inl (hr.mp h))
            have h1 : r' ≠ 0 := fun h => henabled (Or.inr (hr'.mp h))
            rw [if_neg h0, if_neg h1, ← Inside, hrest]
            constructor
            · intro h n status' hn hstatus'
              rcases hdecided n status' hn hstatus' with ⟨-, rfl⟩ | ⟨-, hn⟩
              · exact hstarts
              · exact h n status' hn hstatus'
            · intro h n status' hn hstatus'
              refine h n status' ?_ hstatus'
              exact .later (hnode ▸ hpos) (hnode ▸ hprop) henabled (hnode ▸ hn)

theorem inside_checkPSCI_iff : Inside (checkPSCI lib) ↔ FdtQuery.checkPSCI.Terminated lib := by
  rw [checkPSCI, findNode, checkOffset, FdtQuery.Terminated]
  by_cases hneg : lib.pathOffset (text "/psci") < 0
  · rw [if_pos hneg]
    exact iff_of_true (Inside.refused_bind _ _) fun h => by omega
  · rw [if_neg hneg, pure_bind, needProperty]
    generalize lib.pathOffset (text "/psci") = node at *
    have hpos : 0 ≤ node := by omega
    cases hprop : lib.getProperty node "method" with
    | none =>
      refine iff_of_true (Inside.refused_bind _ _) ?_
      rintro - method ⟨⟩
    | some method =>
      simp only [pure_bind, Option.some.injEq, forall_eq', hpos, forall_const]
      by_cases hzero : (0 : Byte) ∈ method
      · refine iff_of_true ?_ hzero
        have hsmc : (0 : Byte) ∉ text "smc" := by decide
        have hstarts : ¬method <+: text "smc" := fun h => hsmc (h.subset hzero)
        obtain ⟨r, -, hwp⟩ := wp_strcmp hsmc hstarts
        rw [Inside, wp_bind, wp_printString hzero, wp_bind, hwp, ← Inside]
        refine .ite (fun _ => .refused _) fun _ => ?_
        exact (Inside.validateId ..).bind fun _ => (Inside.validateId ..).bind fun _ =>
          Inside.validateId ..
      · refine iff_of_false ?_ hzero
        rw [Inside, wp_bind, wp_printString_unterminated hzero]
        simp

theorem inside_getAarch64Intid_iff (debug : Bool) (compatible : List Byte) :
    Inside (getAarch64Intid lib debug compatible) ↔
      (FdtQuery.getAarch64Intid compatible).Terminated lib := by
  rw [getAarch64Intid, Inside.bind_iff]
  · exact inside_enabledLoop_iff (by omega) (by omega)
  · intro offset
    apply Inside.needProperty
    intro data hdata
    have hlen := Libfdt.length_lt hdata
    cases debug with
    | false => exact Inside.cell _
    | true =>
      exact (Inside.tripletLoop (by omega) (by omega) (Nat.zero_le _)).bind fun _ => Inside.cell _

/-- A query reads inside the properties exactly when the strings that it looks at end: only
`GetCoreCount`, `CheckPSCI` and `GetAarch64Intid` look at strings. -/
theorem fdt_reads_inside_iff (lib : Libfdt) (debug : Bool) (query : FdtQuery) :
    Inside (query.exec lib debug) ↔ query.Terminated lib := by
  have hregion : ∀ query : RegQuery, Inside (query.region lib) :=
    fun query => query.wp_region (fun _ code => ⟨code, rfl⟩) fun _ _ _ => trivial
  cases query with
  | getCoreCount =>
    rw [FdtQuery.exec, Inside.bind_iff fun _ => Inside.pure _, getCoreCount, Inside.bind_iff]
    · exact inside_countLoop_iff (by omega) (by omega)
    · intro count
      exact .ite (fun _ => .refused_bind _ _) fun _ => .pure _
  | checkPSCI => exact inside_checkPSCI_iff
  | getMemory => exact iff_of_true ((hregion .memory).bind fun _ => .pure _) trivial
  | getSerial =>
    refine iff_of_true (.bind ?_ fun _ => .pure _) trivial
    exact wp_getSerial (fun _ code => ⟨code, rfl⟩) fun _ _ _ _ => trivial
  | getTimebaseFrequency =>
    refine iff_of_true (.bind ?_ fun _ => .pure _) trivial
    refine (Inside.checkOffset _).bind fun offset => Inside.needProperty fun data _ => ?_
    exact .ite (fun _ => .refused _) fun hlen => Inside.loadBeU32 (by omega)
  | getGIC =>
    refine iff_of_true (.bind ?_ fun _ => .pure _) trivial
    refine (Inside.checkOffset _).bind fun offset => Inside.needProperty fun data _ => ?_
    exact (Inside.regPairOrZero 0).bind fun _ => (Inside.regPairOrZero 16).bind fun _ => .pure _
  | getAarch64Intid compatible =>
    rw [FdtQuery.exec, Inside.bind_iff fun _ => Inside.pure _]
    exact inside_getAarch64Intid_iff debug compatible
  | getPlic =>
    refine iff_of_true (.bind ?_ fun _ => .pure _) trivial
    exact wp_getPlic (fun _ code => ⟨code, rfl⟩) fun _ _ _ _ _ => trivial

/-- A `device_type` of the three bytes `cpu` is read at index 3. -/
theorem device_type_read_outside :
    let lib := uniformTree (text "cpu") (by decide)
    FdtQuery.getCoreCount.exec lib false () = .error .outside () ∧
      ¬Inside (FdtQuery.getCoreCount.exec lib false) := by
  intro lib
  have hrun : FdtQuery.getCoreCount.exec lib false () = .error .outside () := rfl
  refine ⟨hrun, ?_⟩
  rw [Inside, wp_of_error hrun]
  rintro ⟨code, ⟨⟩⟩

end NaiLongKernel.Fdt
