import TomatOS.Foundation.LinkedMemory
import TomatOS.MemoryLayout

/-! The search for the ACPI timer in `kernel/acpi/acpi.c`. The root table is the XSDT or
the RSDT, depending on the revision, with entries of eight or four bytes; it and every
table it lists are checked to have a header and to sum to zero over their length. The last
FACP listed gives the port of the timer, whose fields lie behind the header: nobody checks
that the FACP is long enough to have them. -/

namespace TomatOS.Acpi

open Foundation.LinkedMemory

/-- The field of `n` bytes at an offset of a packed structure. -/
def field (m : Memory) (ptr offset n : ℕ) : ℕ := loadBytes (fun b => m (b % wordSize)) (ptr + offset) n

/-- `ACPI_RSDP_SIGNATURE`, the characters `RSD PTR ` from the low byte on. -/
def acpiRsdpSignature : ℕ := 0x2052545020445352

/-- `ACPI_FACP_SIGNATURE`. -/
def acpiFacpSignature : ℕ := 0x50434146

/-- `sizeof(acpi_description_header_t)`. -/
def headerSize : ℕ := 36

/-! ### The fields that are read -/

def rsdpSignature (m : Memory) (rsdp : ℕ) : ℕ := field m rsdp 0 8
def rsdpRevision (m : Memory) (rsdp : ℕ) : ℕ := field m rsdp 15 1
def rsdtAddress (m : Memory) (rsdp : ℕ) : ℕ := field m rsdp 16 4
def xsdtAddress (m : Memory) (rsdp : ℕ) : ℕ := field m rsdp 24 8

def signature (m : Memory) (table : ℕ) : ℕ := field m table 0 4
def length (m : Memory) (table : ℕ) : ℕ := field m table 4 4

/-- The offsets of `pm_tmr_blk` and `pm_tmr_len` in `acpi_facp_t`. -/
def pmTmrBlkOffset : ℕ := 76
def pmTmrLenOffset : ℕ := 91

def pmTmrBlk (m : Memory) (facp : ℕ) : ℕ := field m facp pmTmrBlkOffset 4
def pmTmrLen (m : Memory) (facp : ℕ) : ℕ := field m facp pmTmrLenOffset 1

/-! ### The functions -/

inductive Err where
  | checkFailed
  deriving DecidableEq

/-- The sum of the first bytes of a table. -/
def checksum (m : Memory) (table : ℕ) : ℕ → UInt8
  | 0 => 0
  | n + 1 => checksum m table n + m ((table + n) % wordSize)

def validateAcpiTable (m : Memory) (header : ℕ) : Option Err :=
  if ¬ headerSize ≤ length m header then some .checkFailed
  else if checksum m header (length m header) ≠ 0 then some .checkFailed
  else none

/-- What is done with a table: it is found to be valid, an entry of the root table is read,
or a field that only the FACP has, each with its offset and width. -/
inductive Access where
  | verified (table : ℕ)
  | rootEntry (root offset width : ℕ)
  | facpField (facp offset width : ℕ)
  deriving DecidableEq

/-- `facp`, with 0 for the null pointer, and the accesses so far. -/
structure Scan where
  facp : ℕ
  trace : List Access

/-- The table that an entry of the root table leads to. -/
def tableAt (m : Memory) (root width i : ℕ) : ℕ :=
  physToDirect (field m root (headerSize + width * i) width)

/-- The loop over the entries from `i` on, with the root table and the width of its entries
unless both pointers are null. -/
def scanTables (m : Memory) (root : Option (ℕ × ℕ)) : ℕ → ℕ → Scan → Option Err × Scan
  | 0, _, scan => (none, scan)
  | n + 1, i, scan =>
    match root with
    | none => (some .checkFailed, scan)
    | some (root, width) =>
      let table := tableAt m root width i
      let trace := scan.trace ++ [.rootEntry root (headerSize + width * i) width]
      match validateAcpiTable m table with
      | some err => (some err, ⟨scan.facp, trace⟩)
      | none =>
        let facp := if signature m table = acpiFacpSignature then table else scan.facp
        scanTables m (some (root, width)) n (i + 1) ⟨facp, trace ++ [.verified table]⟩

/-- The accesses, and `m_acpi_timer_port` if it was set. -/
structure Outcome where
  trace : List Access
  timerPort : Option ℕ

/-- The checks of the FACP after the loop. -/
def selectTimer (m : Memory) (scan : Scan) : Option Err × Outcome :=
  let facp := scan.facp
  if facp = 0 then (some .checkFailed, ⟨scan.trace, none⟩)
  else
    let trace := scan.trace ++ [.facpField facp pmTmrBlkOffset 4]
    if pmTmrBlk m facp = 0 then (some .checkFailed, ⟨trace, none⟩)
    else
      let trace := trace ++ [.facpField facp pmTmrLenOffset 1]
      if pmTmrLen m facp ≠ 4 then (some .checkFailed, ⟨trace, none⟩)
      else (none, ⟨trace ++ [.facpField facp pmTmrBlkOffset 4], some (pmTmrBlk m facp % 2 ^ 16)⟩)

/-- The root table with the width of its entries. -/
def rootOf (xsdt rsdt : ℕ) : Option (ℕ × ℕ) :=
  if xsdt ≠ 0 then some (xsdt, 8) else if rsdt ≠ 0 then some (rsdt, 4) else none

/-- `init_acpi_tables`, with the address of the RSDP if the boot loader has left one. -/
def initAcpiTables (m : Memory) (response : Option ℕ) : Option Err × Outcome :=
  match response with
  | none => (some .checkFailed, ⟨[], none⟩)
  | some rsdp =>
    if rsdpSignature m rsdp ≠ acpiRsdpSignature then (some .checkFailed, ⟨[], none⟩)
    else if rsdtAddress m rsdp = 0 then (some .checkFailed, ⟨[], none⟩)
    else
      let xsdt := if 2 ≤ rsdpRevision m rsdp then physToDirect (xsdtAddress m rsdp) else 0
      let rsdt := if 2 ≤ rsdpRevision m rsdp then 0 else physToDirect (rsdtAddress m rsdp)
      let root := if 2 ≤ rsdpRevision m rsdp then xsdt else rsdt
      match validateAcpiTable m root with
      | some err => (some err, ⟨[], none⟩)
      | none =>
        let entryCount :=
          if xsdt ≠ 0 then (length m xsdt - headerSize) / 8 else (length m rsdt - headerSize) / 4
        match scanTables m (rootOf xsdt rsdt) entryCount 0 ⟨0, [.verified root]⟩ with
        | (some err, scan) => (some err, ⟨scan.trace, none⟩)
        | (none, scan) => selectTimer m scan

/-! ### What the search is to do -/

/-- The table has a header and sums to zero. -/
def Valid (m : Memory) (table : ℕ) : Prop :=
  headerSize ≤ length m table ∧ checksum m table (length m table) = 0

/-- An access that is all right: to an entry inside the root table, to a field inside a
table that was found to be valid. -/
def Access.Inside (m : Memory) (trace : List Access) : Access → Prop
  | .verified table => Valid m table
  | .rootEntry root offset width => offset + width ≤ length m root
  | .facpField facp offset width => .verified facp ∈ trace ∧ offset + width ≤ length m facp

/-- The root table that the RSDP names, and the width of its entries. -/
def rootTable (m : Memory) (rsdp : ℕ) : ℕ × ℕ :=
  if 2 ≤ rsdpRevision m rsdp then (physToDirect (xsdtAddress m rsdp), 8)
  else (physToDirect (rsdtAddress m rsdp), 4)

def entryCount (m : Memory) (root width : ℕ) : ℕ := (length m root - headerSize) / width

/-- The root table and all tables it lists are valid. -/
def AllValid (m : Memory) (root width : ℕ) : Prop :=
  Valid m root ∧ ∀ i < entryCount m root width, Valid m (tableAt m root width i)

/-- Every access is all right, and success means that all tables are valid. -/
def Safe (m : Memory) (response : Option ℕ) : Prop :=
  (∀ a ∈ (initAcpiTables m response).2.trace, a.Inside m (initAcpiTables m response).2.trace) ∧
    ((initAcpiTables m response).1 = none → ∃ rsdp, response = some rsdp ∧
      AllValid m (rootTable m rsdp).1 (rootTable m rsdp).2)

/-- The table at entry `j` is an FACP, and no entry after it before `i` is one. -/
def LastFacp (m : Memory) (root width i j : ℕ) : Prop :=
  j < i ∧ signature m (tableAt m root width j) = acpiFacpSignature ∧
    ∀ k, j < k → k < i → signature m (tableAt m root width k) ≠ acpiFacpSignature

/-- The FACP that the timer is taken from: the RSDP is accepted, all tables are valid, and
it is the last one that is listed. -/
structure Selected (m : Memory) (response : Option ℕ) (facp : ℕ) : Prop where
  nonnull : facp ≠ 0
  found : ∃ rsdp, response = some rsdp ∧ rsdpSignature m rsdp = acpiRsdpSignature ∧
    rsdtAddress m rsdp ≠ 0 ∧ (rootTable m rsdp).1 ≠ 0 ∧
    AllValid m (rootTable m rsdp).1 (rootTable m rsdp).2 ∧
    ∃ j, LastFacp m (rootTable m rsdp).1 (rootTable m rsdp).2
        (entryCount m (rootTable m rsdp).1 (rootTable m rsdp).2) j ∧
      tableAt m (rootTable m rsdp).1 (rootTable m rsdp).2 j = facp

/-- The table has the fields of the timer that are read: the second one is if the first
one is not zero. -/
def LongEnough (m : Memory) (facp : ℕ) : Prop :=
  pmTmrBlkOffset + 4 ≤ length m facp ∧
    (pmTmrBlk m facp = 0 ∨ pmTmrLenOffset + 1 ≤ length m facp)

/-! ### The loop -/

section Scan

variable {m : Memory} {root width i n facp : ℕ} {scan : Scan} {table : ℕ}

theorem validateAcpiTable_eq_none_iff : validateAcpiTable m table = none ↔ Valid m table := by
  rw [validateAcpiTable, Valid]
  by_cases hlen : headerSize ≤ length m table
  · by_cases hsum : checksum m table (length m table) = 0
    · simp [hlen, hsum]
    · simp [hlen, hsum]
  · simp [hlen]

/-- The accesses of the loop up to entry `i`. -/
def ScanAccess (m : Memory) (root width i : ℕ) (a : Access) : Prop :=
  (∃ table, a = .verified table ∧ Valid m table) ∨
    ∃ j < i, a = .rootEntry root (headerSize + width * j) width

/-- What holds when the loop is at entry `i`. -/
structure ScanInv (m : Memory) (root width i : ℕ) (scan : Scan) : Prop where
  trace : ∀ a ∈ scan.trace, ScanAccess m root width i a
  valid : ∀ j < i, Valid m (tableAt m root width j)
  picked : (∃ j, LastFacp m root width i j ∧ tableAt m root width j = scan.facp) ∨
    scan.facp = 0 ∧ ∀ k < i, signature m (tableAt m root width k) ≠ acpiFacpSignature
  verified : scan.facp ≠ 0 → .verified scan.facp ∈ scan.trace

theorem ScanAccess.mono {a : Access} (h : ScanAccess m root width i a) (hle : i ≤ n) :
    ScanAccess m root width n a := by
  rcases h with h | ⟨j, hj, ha⟩
  · exact .inl h
  · exact .inr ⟨j, by omega, ha⟩

theorem picked_step
    (h : (∃ j, LastFacp m root width i j ∧ tableAt m root width j = facp) ∨
      facp = 0 ∧ ∀ k < i, signature m (tableAt m root width k) ≠ acpiFacpSignature)
    (hother : signature m (tableAt m root width i) ≠ acpiFacpSignature) :
    (∃ j, LastFacp m root width (i + 1) j ∧ tableAt m root width j = facp) ∨
      facp = 0 ∧ ∀ k < i + 1, signature m (tableAt m root width k) ≠ acpiFacpSignature := by
  have hnext : ∀ k, ¬ k < i → k < i + 1 → signature m (tableAt m root width k) ≠ acpiFacpSignature := by
    intro k hk hlt
    obtain rfl : k = i := by omega
    exact hother
  rcases h with ⟨j, ⟨hj, hsig, hafter⟩, hfacp⟩ | ⟨hzero, hnone⟩
  · refine .inl ⟨j, ⟨by omega, hsig, fun k hk hlt => ?_⟩, hfacp⟩
    by_cases hki : k < i
    · exact hafter k hk hki
    · exact hnext k hki hlt
  · refine .inr ⟨hzero, fun k hlt => ?_⟩
    by_cases hki : k < i
    · exact hnone k hki
    · exact hnext k hki hlt

theorem lastFacp_self (h : signature m (tableAt m root width i) = acpiFacpSignature) :
    LastFacp m root width (i + 1) i :=
  ⟨Nat.lt_succ_self i, h, fun k hk hlt => absurd hlt (by omega)⟩

theorem trace_step (h : ∀ a ∈ scan.trace, ScanAccess m root width i a) :
    ∀ a ∈ scan.trace ++ [.rootEntry root (headerSize + width * i) width],
      ScanAccess m root width (i + 1) a := by
  intro a ha
  rcases List.mem_append.mp ha with ha | ha
  · exact (h a ha).mono (Nat.le_succ i)
  · exact .inr ⟨i, Nat.lt_succ_self i, List.mem_singleton.mp ha⟩

theorem ScanInv.step (h : ScanInv m root width i scan)
    (hvalid : Valid m (tableAt m root width i)) :
    ScanInv m root width (i + 1)
      ⟨if signature m (tableAt m root width i) = acpiFacpSignature then tableAt m root width i
        else scan.facp,
        scan.trace ++ [.rootEntry root (headerSize + width * i) width] ++
          [.verified (tableAt m root width i)]⟩ := by
  constructor
  case trace =>
    intro a ha
    rcases List.mem_append.mp ha with ha | ha
    · exact trace_step h.trace a ha
    · exact .inl ⟨_, List.mem_singleton.mp ha, hvalid⟩
  case valid =>
    intro j hj
    by_cases hji : j < i
    · exact h.valid j hji
    · obtain rfl : j = i := by omega
      exact hvalid
  case picked =>
    dsimp only
    split_ifs with hsig
    · exact .inl ⟨i, lastFacp_self hsig, rfl⟩
    · exact picked_step h.picked hsig
  case verified =>
    dsimp only
    split_ifs with hsig
    · intro _
      exact List.mem_append_right _ (List.mem_singleton.mpr rfl)
    · intro hne
      exact List.mem_append_left _ (List.mem_append_left _ (h.verified hne))

/-- The loop gets to the end if all tables are valid, and else stops at one that is not. -/
theorem scanTables_spec (h : ScanInv m root width i scan) (n : ℕ) :
    ((scanTables m (some (root, width)) n i scan).1 = none ∧
        ScanInv m root width (i + n) (scanTables m (some (root, width)) n i scan).2) ∨
      ((∃ err, (scanTables m (some (root, width)) n i scan).1 = some err) ∧
        (∀ a ∈ (scanTables m (some (root, width)) n i scan).2.trace,
          ScanAccess m root width (i + n) a) ∧
        ∃ j < i + n, ¬ Valid m (tableAt m root width j)) := by
  induction n generalizing i scan with
  | zero => exact .inl ⟨rfl, h⟩
  | succ n ih =>
    rw [scanTables]
    cases hval : validateAcpiTable m (tableAt m root width i) with
    | none =>
      have hnext := ih (h.step (validateAcpiTable_eq_none_iff.mp hval))
      rwa [Nat.add_right_comm, Nat.add_assoc] at hnext
    | some err =>
      refine .inr ⟨⟨err, rfl⟩, fun a ha => ?_, i, by omega, fun hv => ?_⟩
      · exact (trace_step h.trace a ha).mono (by omega)
      · rw [validateAcpiTable_eq_none_iff.mpr hv] at hval
        cases hval

end Scan

/-! ### The whole search -/

section Search

variable {m : Memory} {root width i n facp rsdp : ℕ} {scan : Scan} {response : Option ℕ}

theorem inside_of_scanAccess {a : Access} {trace : List Access} (hroot : Valid m root)
    (h : ScanAccess m root width (entryCount m root width) a) : a.Inside m trace := by
  rcases h with ⟨table, rfl, hvalid⟩ | ⟨j, hj, rfl⟩
  · exact hvalid
  · have hlen := hroot.1
    have hmul : width * (j + 1) ≤ length m root - headerSize :=
      Nat.le_trans (Nat.mul_le_mul_left width hj) (Nat.mul_div_le _ _)
    rw [Nat.mul_add_one] at hmul
    change headerSize + width * j + width ≤ length m root
    omega

/-- The two fields, and after them the first one again at most. -/
theorem inside_fields_iff {trace rest : List Access} (htrace : ∀ a ∈ trace, ∀ t, a.Inside m t)
    (hverified : .verified facp ∈ trace)
    (hrest : ∀ a ∈ rest, a = .facpField facp pmTmrBlkOffset 4) :
    (∀ a ∈ trace ++ [.facpField facp pmTmrBlkOffset 4] ++ [.facpField facp pmTmrLenOffset 1] ++ rest,
        a.Inside m (trace ++ [.facpField facp pmTmrBlkOffset 4] ++
          [.facpField facp pmTmrLenOffset 1] ++ rest)) ↔
      pmTmrBlkOffset + 4 ≤ length m facp ∧ pmTmrLenOffset + 1 ≤ length m facp := by
  have hmem : .verified facp ∈ trace ++ [.facpField facp pmTmrBlkOffset 4] ++
      [.facpField facp pmTmrLenOffset 1] ++ rest := by simp [hverified]
  constructor
  · intro h
    have hfirst := h (.facpField facp pmTmrBlkOffset 4) (by simp)
    have hsecond := h (.facpField facp pmTmrLenOffset 1) (by simp)
    exact ⟨hfirst.2, hsecond.2⟩
  · rintro ⟨hfirst, hsecond⟩ a ha
    simp only [List.mem_append, List.mem_singleton, or_assoc] at ha
    rcases ha with ha | rfl | rfl | ha
    · exact htrace a ha _
    · exact ⟨hmem, hfirst⟩
    · exact ⟨hmem, hsecond⟩
    · rw [hrest a ha]
      exact ⟨hmem, hfirst⟩

/-- The fields of the FACP are the only accesses that can be wrong. -/
theorem selectTimer_inside_iff
    (htrace : ∀ a ∈ scan.trace, ∀ trace, a.Inside m trace)
    (hverified : scan.facp ≠ 0 → .verified scan.facp ∈ scan.trace) :
    (∀ a ∈ (selectTimer m scan).2.trace, a.Inside m (selectTimer m scan).2.trace) ↔
      (scan.facp ≠ 0 → LongEnough m scan.facp) := by
  rw [selectTimer]
  by_cases hnull : scan.facp = 0
  · rw [if_pos hnull]
    exact iff_of_true (fun a ha => htrace a ha _) fun h => absurd hnull h
  · have hin := hverified hnull
    rw [if_neg hnull, forall_prop_of_true hnull, LongEnough]
    by_cases hblk : pmTmrBlk m scan.facp = 0
    · rw [if_pos hblk]
      simp only [List.forall_mem_append, List.forall_mem_singleton, Access.Inside, hblk, true_or,
        and_true]
      constructor
      · intro h
        exact h.2.2
      · intro h
        exact ⟨fun a ha => htrace a ha _, List.mem_append_left _ hin, h⟩
    · rw [if_neg hblk, or_iff_right hblk]
      split_ifs
      · have hfields := inside_fields_iff htrace hin (List.forall_mem_nil _)
        rwa [List.append_nil] at hfields
      · exact inside_fields_iff htrace hin (by simp)

theorem LastFacp.unique {j k : ℕ} (hj : LastFacp m root width i j)
    (hk : LastFacp m root width i k) : j = k := by
  rcases Nat.lt_trichotomy j k with hlt | heq | hgt
  · exact absurd hk.2.1 (hj.2.2 k hlt hk.1)
  · exact heq
  · exact absurd hj.2.1 (hk.2.2 j hgt hj.1)

theorem ScanInv.facp_eq (h : ScanInv m root width i scan) {j : ℕ}
    (hj : LastFacp m root width i j) : scan.facp = tableAt m root width j := by
  rcases h.picked with ⟨k, hk, hfacp⟩ | ⟨-, hnone⟩
  · rw [← hfacp, hk.unique hj]
  · exact absurd hj.2.1 (hnone j hj.1)

/-- The search behind the RSDP. -/
def searchFrom (m : Memory) (root width : ℕ) : Option Err × Outcome :=
  match validateAcpiTable m root with
  | some err => (some err, ⟨[], none⟩)
  | none =>
    match scanTables m (if root = 0 then none else some (root, width))
        (if root = 0 then (length m 0 - headerSize) / 4 else entryCount m root width) 0
        ⟨0, [.verified root]⟩ with
    | (some err, scan) => (some err, ⟨scan.trace, none⟩)
    | (none, scan) => selectTimer m scan

theorem initAcpiTables_accepted (hsig : rsdpSignature m rsdp = acpiRsdpSignature)
    (hrsdt : rsdtAddress m rsdp ≠ 0) :
    initAcpiTables m (some rsdp) = searchFrom m (rootTable m rsdp).1 (rootTable m rsdp).2 := by
  simp only [initAcpiTables, if_neg (not_not.mpr hsig), if_neg hrsdt]
  rw [rootTable]
  by_cases hrev : 2 ≤ rsdpRevision m rsdp
  · simp only [if_pos hrev, searchFrom, rootOf, entryCount, ne_eq, not_true_eq_false, if_false,
      ite_not]
  · simp only [if_neg hrev, searchFrom, rootOf, entryCount, ne_eq, not_true_eq_false, if_false,
      ite_not]
    by_cases hroot : physToDirect (rsdtAddress m rsdp) = 0
    · simp only [hroot, if_true]
    · simp only [hroot, if_false]

theorem initAcpiTables_rejected
    (h : rsdpSignature m rsdp ≠ acpiRsdpSignature ∨ rsdtAddress m rsdp = 0) :
    initAcpiTables m (some rsdp) = (some .checkFailed, ⟨[], none⟩) := by
  by_cases hsig : rsdpSignature m rsdp ≠ acpiRsdpSignature
  · simp only [initAcpiTables, if_pos hsig]
  · simp only [initAcpiTables, if_neg hsig, if_pos (h.resolve_left hsig)]

theorem scanTables_null (m : Memory) (root n : ℕ) :
    (match scanTables m none n 0 ⟨0, [.verified root]⟩ with
      | (some err, scan) => (some err, (⟨scan.trace, none⟩ : Outcome))
      | (none, scan) => selectTimer m scan) = (some .checkFailed, ⟨[.verified root], none⟩) := by
  cases n with
  | zero => rfl
  | succ n => rfl

/-- How the search behind the RSDP ends: at a table that is not valid or a null pointer,
with all accesses before that all right, or with the tables all valid. -/
theorem searchFrom_cases (m : Memory) (root width : ℕ) :
    ((∃ err, (searchFrom m root width).1 = some err) ∧
        (∀ a ∈ (searchFrom m root width).2.trace, ∀ trace, a.Inside m trace) ∧
        (root = 0 ∨ ¬ AllValid m root width)) ∨
      ∃ scan, searchFrom m root width = selectTimer m scan ∧ root ≠ 0 ∧ Valid m root ∧
        ScanInv m root width (entryCount m root width) scan := by
  rw [searchFrom]
  cases hval : validateAcpiTable m root with
  | some err =>
    refine .inl ⟨⟨err, rfl⟩, by simp, .inr fun hall => ?_⟩
    rw [validateAcpiTable_eq_none_iff.mpr hall.1] at hval
    cases hval
  | none =>
    have hvalid := validateAcpiTable_eq_none_iff.mp hval
    by_cases hroot : root = 0
    · left
      simp only [if_pos hroot]
      rw [scanTables_null]
      refine ⟨⟨_, rfl⟩, fun a ha trace => ?_, .inl hroot⟩
      rw [List.mem_singleton.mp ha]
      exact hvalid
    · simp only [if_neg hroot]
      have hstart : ScanInv m root width 0 ⟨0, [.verified root]⟩ :=
        { trace := fun a ha => .inl ⟨root, List.mem_singleton.mp ha, hvalid⟩
          valid := fun j hj => absurd hj (Nat.not_lt_zero j)
          picked := .inr ⟨rfl, fun k hk => absurd hk (Nat.not_lt_zero k)⟩
          verified := fun h => absurd rfl h }
      have hspec := scanTables_spec hstart (entryCount m root width)
      generalize scanTables m (some (root, width)) (entryCount m root width) 0
        ⟨0, [.verified root]⟩ = result at hspec ⊢
      obtain ⟨err, scan⟩ := result
      rw [Nat.zero_add] at hspec
      rcases hspec with ⟨hnone, hinv⟩ | ⟨⟨e, herr⟩, htrace, j, hj, hbad⟩
      · obtain rfl : err = none := hnone
        exact .inr ⟨scan, rfl, hroot, hvalid, hinv⟩
      · obtain rfl : err = some e := herr
        refine .inl ⟨⟨e, rfl⟩, fun a ha trace => ?_, .inr fun hall => hbad (hall.2 j hj)⟩
        exact inside_of_scanAccess hvalid (htrace a ha)

/-- The table that the loop ends with is the one that is selected. -/
theorem selected_iff_of_scan (hsig : rsdpSignature m rsdp = acpiRsdpSignature)
    (hrsdt : rsdtAddress m rsdp ≠ 0) (hroot : (rootTable m rsdp).1 ≠ 0)
    (hvalid : Valid m (rootTable m rsdp).1)
    (hinv : ScanInv m (rootTable m rsdp).1 (rootTable m rsdp).2
      (entryCount m (rootTable m rsdp).1 (rootTable m rsdp).2) scan) (facp : ℕ) :
    Selected m (some rsdp) facp ↔ scan.facp ≠ 0 ∧ facp = scan.facp := by
  constructor
  · rintro ⟨hnonnull, rsdp', hsome, -, -, -, -, j, hlast, hfacp⟩
    obtain rfl := Option.some.inj hsome
    rw [← hfacp, ← hinv.facp_eq hlast] at hnonnull
    exact ⟨hnonnull, by rw [← hfacp, hinv.facp_eq hlast]⟩
  · rintro ⟨hnonnull, rfl⟩
    rcases hinv.picked with ⟨j, hlast, hfacp⟩ | ⟨hzero, -⟩
    · exact ⟨hnonnull, rsdp, rfl, hsig, hrsdt, hroot, ⟨hvalid, hinv.valid⟩, j, hlast, hfacp⟩
    · exact absurd hzero hnonnull

end Search

/-- For every content of memory: the search reads inside tables that it has found to be
valid, and succeeds only if all tables are, if and only if the FACP that it selects is long
enough for the fields it reads. -/
theorem initAcpiTables_safe_iff (m : Memory) (response : Option ℕ) :
    Safe m response ↔ ∀ facp, Selected m response facp → LongEnough m facp := by
  cases response with
  | none =>
    refine iff_of_true ⟨by simp [initAcpiTables], fun h => by cases h⟩ ?_
    rintro facp ⟨-, rsdp, hsome, -⟩
    cases hsome
  | some rsdp =>
    by_cases hreject : rsdpSignature m rsdp ≠ acpiRsdpSignature ∨ rsdtAddress m rsdp = 0
    · rw [Safe, initAcpiTables_rejected hreject]
      refine iff_of_true ⟨by simp, fun h => by cases h⟩ ?_
      rintro facp ⟨-, rsdp', hsome, hsig, hrsdt, -⟩
      obtain rfl := Option.some.inj hsome
      rcases hreject with hbad | hzero
      · exact absurd hsig hbad
      · exact absurd hzero hrsdt
    · obtain ⟨hsig, hrsdt⟩ := not_or.mp hreject
      rw [not_not] at hsig
      rw [Safe, initAcpiTables_accepted hsig hrsdt]
      rcases searchFrom_cases m (rootTable m rsdp).1 (rootTable m rsdp).2 with
        ⟨⟨err, herr⟩, htrace, hstop⟩ | ⟨scan, hrun, hroot, hvalid, hinv⟩
      · refine iff_of_true ⟨fun a ha => htrace a ha _, fun h => ?_⟩ ?_
        · rw [herr] at h
          cases h
        · rintro facp ⟨-, rsdp', hsome, -, -, hroot, hall, -⟩
          obtain rfl := Option.some.inj hsome
          rcases hstop with hnull | hbad
          · exact absurd hnull hroot
          · exact absurd hall hbad
      · have hinside := selectTimer_inside_iff (m := m)
          (fun a ha trace => inside_of_scanAccess hvalid (hinv.trace a ha)) hinv.verified
        have hselected := selected_iff_of_scan hsig hrsdt hroot hvalid hinv
        rw [hrun, hinside]
        constructor
        · rintro ⟨hlong, -⟩ facp hsel
          obtain ⟨hne, rfl⟩ := (hselected facp).mp hsel
          exact hlong hne
        · intro hlong
          refine ⟨fun hne => hlong _ ((hselected _).mpr ⟨hne, rfl⟩), fun _ => ?_⟩
          exact ⟨rsdp, rfl, hvalid, hinv.valid⟩

/-- An RSDP of the first revision, an RSDT with one entry, and an FACP that is a header. -/
def shortFacp : Memory := fun a =>
  if 0xFFFF800000000800 ≤ a ∧ a < 0xFFFF800000000814 then
    [0x52, 0x53, 0x44, 0x20, 0x50, 0x54, 0x52, 0x20, 0, 0, 0, 0, 0, 0, 0, 0, 0, 0x10, 0, 0].getD
      (a - 0xFFFF800000000800) 0
  else if 0xFFFF800000001000 ≤ a ∧ a < 0xFFFF80000000100A then
    [0x52, 0x53, 0x44, 0x54, 40, 0, 0, 0, 0, 0x7B].getD (a - 0xFFFF800000001000) 0
  else if a = 0xFFFF800000001025 then 0x20
  else if 0xFFFF800000002000 ≤ a ∧ a < 0xFFFF80000000200A then
    [0x46, 0x41, 0x43, 0x50, 36, 0, 0, 0, 0, 0xC2].getD (a - 0xFFFF800000002000) 0
  else 0

/-- All tables are valid, and the field is read 40 bytes behind the end of the FACP. -/
theorem initAcpiTables_short_facp :
    .facpField 0xFFFF800000002000 76 4 ∈
        (initAcpiTables shortFacp (some 0xFFFF800000000800)).2.trace ∧
      Valid shortFacp 0xFFFF800000002000 ∧ length shortFacp 0xFFFF800000002000 = 36 ∧
      ¬ Safe shortFacp (some 0xFFFF800000000800) := by
  have hmem : .facpField 0xFFFF800000002000 76 4 ∈
      (initAcpiTables shortFacp (some 0xFFFF800000000800)).2.trace := by decide +kernel
  have hlength : length shortFacp 0xFFFF800000002000 = 36 := by decide +kernel
  have hvalid : validateAcpiTable shortFacp 0xFFFF800000002000 = none := by decide +kernel
  refine ⟨hmem, validateAcpiTable_eq_none_iff.mp hvalid, hlength, fun hsafe => ?_⟩
  have hinside := (hsafe.1 _ hmem).2
  rw [hlength] at hinside
  omega

end TomatOS.Acpi
