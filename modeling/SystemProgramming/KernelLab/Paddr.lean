import SystemProgramming.Library.ByteFields

/-!
# The physical address of a virtual one (`read_output` in `dbfs_paddr.c`)

A read of the `output` file takes a packet with a pid and a virtual address, walks the five levels of
page tables of that process, and puts the physical address in the packet.  On the way down an entry must
be neither empty nor bad; the page-table entry it comes to must not be empty, and need not be present.

* `readOutput` : the function, on page tables and on the bytes of the packet.
* `WalksTo`, `Present`, `frame` : what the hardware makes of the tables.
* `toNat_physAddr` : the two masks as arithmetic.
* `reports_iff` : the page tables for which the answer is that of the hardware.
-/

namespace SystemProgramming.KernelLab

open ByteFields

/-! ### Page tables -/

/-- An entry above the last level, as the tests for `none` and `bad` see it. -/
inductive Entry (α : Type)
  | none
  | bad
  | table (t : α)

/-- The page-table entries that a middle entry points to. -/
abbrev PteTable := Fin 512 → UInt64

abbrev PmdTable := Fin 512 → Entry PteTable

abbrev PudTable := Fin 512 → Entry PmdTable

abbrev P4dTable := Fin 512 → Entry PudTable

/-- The tables of a process; with four levels all entries at the top are one table. -/
abbrev PgdTable := Fin 512 → Entry P4dTable

/-- The index of an address into a table, from that bit on. -/
def tableIndex (vaddr : UInt64) (shift : ℕ) : Fin 512 :=
  ⟨vaddr.toNat / 2 ^ shift % 512, Nat.mod_lt _ (by decide)⟩

/-- `pgd_offset`. -/
def pgdOffset (mm : PgdTable) (vaddr : UInt64) : Entry P4dTable := mm (tableIndex vaddr 48)

/-- `p4d_offset`. -/
def p4dOffset (pgd : P4dTable) (vaddr : UInt64) : Entry PudTable := pgd (tableIndex vaddr 39)

/-- `pud_offset`. -/
def pudOffset (p4d : PudTable) (vaddr : UInt64) : Entry PmdTable := p4d (tableIndex vaddr 30)

/-- `pmd_offset`. -/
def pmdOffset (pud : PmdTable) (vaddr : UInt64) : Entry PteTable := pud (tableIndex vaddr 21)

/-- `pte_offset_kernel`. -/
def pteOffsetKernel (pmd : PteTable) (vaddr : UInt64) : UInt64 := pmd (tableIndex vaddr 12)

/-! ### The function -/

/-- The processes: the search by pid, and the page tables, which a kernel thread does not have. -/
structure Processes (τ : Type*) where
  find : ℤ → Option τ
  mm : τ → Option PgdTable

/-- `sizeof(struct packet)`: `pid` at 0, `vaddr` at 8 and `paddr` at 16. -/
def packetSize : ℕ := 24

/-- What `pckt` holds before it is read. -/
structure Packet where
  bytes : List UInt8
  length_eq : bytes.length = packetSize

/-- `pckt.pid`. -/
def packetPid (pckt : List UInt8) : ℤ := Int.bmod (field pckt 0 4) (2 ^ 32)

/-- `pckt.vaddr`. -/
def packetVaddr (pckt : List UInt8) : UInt64 := UInt64.ofNat (field pckt 8 8)

/-- `PAGE_MASK`. -/
def pageMask : UInt64 := ~~~(4096 - 1)

/-- `mask`. -/
def mask : UInt64 := ((1 : UInt64) <<< 48) - 1

/-- `paddr`, from the page-table entry. -/
def physAddr (pte vaddr : UInt64) : UInt64 :=
  ((pte &&& pageMask) ||| (vaddr &&& ~~~pageMask)) &&& mask

/-- A read that goes wrong in the kernel, or returns with what the memory of the user holds. -/
inductive Answer
  | fault
  | returned (ret : ℤ) (user : List UInt8)

/-- `copy_to_user(user_buffer, &pckt, sizeof(pckt))` and the return behind it. -/
def copyBack (writable : Bool) (user pckt : List UInt8) : Answer :=
  if writable = false then .returned (-14) user
  else if user.length < packetSize then .returned (-14) (pckt.take user.length)
  else .returned packetSize (pckt ++ user.drop packetSize)

/-- The walk of `read_output`: the page-table entry, unless some entry is none or bad. -/
def walk (mm : PgdTable) (vaddr : UInt64) : Option UInt64 :=
  match pgdOffset mm vaddr with
  | .none | .bad => none
  | .table pgd =>
    match p4dOffset pgd vaddr with
    | .none | .bad => none
    | .table p4d =>
      match pudOffset p4d vaddr with
      | .none | .bad => none
      | .table pud =>
        match pmdOffset pud vaddr with
        | .none | .bad => none
        | .table pmd =>
          let pte := pteOffsetKernel pmd vaddr
          if pte = 0 then none else some pte

/-- `read_output`, where `stale` is what `pckt` holds before and `user` what the user has mapped from
`user_buffer` on. -/
def readOutput {τ : Type*} (P : Processes τ) (stale : Packet) (readable writable : Bool)
    (user : List UInt8) (length : ℕ) : Answer :=
  if packetSize < length then .fault
  else if readable = false ∨ user.length < length then .returned (-14) user
  else
    let pckt := user.take length ++ stale.bytes.drop length
    match P.find (packetPid pckt) with
    | none => .returned (-22) user
    | some task =>
      match P.mm task with
      | none => .fault
      | some mm =>
        match walk mm (packetVaddr pckt) with
        | none => .returned (-22) user
        | some pte =>
          let paddr := physAddr pte (packetVaddr pckt)
          copyBack writable user (setField pckt 16 8 paddr.toNat)

/-! ### What the hardware does -/

/-- The walk of the hardware through entries that point to tables. -/
def WalksTo (mm : PgdTable) (vaddr pte : UInt64) : Prop :=
  ∃ pgd p4d pud pmd, mm (tableIndex vaddr 48) = .table pgd ∧ pgd (tableIndex vaddr 39) = .table p4d ∧
    p4d (tableIndex vaddr 30) = .table pud ∧ pud (tableIndex vaddr 21) = .table pmd ∧
    pmd (tableIndex vaddr 12) = pte

/-- The present bit of a page-table entry. -/
def Present (pte : UInt64) : Prop := pte.toNat % 2 = 1

/-- The frame number of a present entry, bits 12 to 51. -/
def frame (pte : UInt64) : ℕ := pte.toNat / 2 ^ 12 % 2 ^ 40

variable {mm : PgdTable} {vaddr pte : UInt64}

theorem pageMask_toNat : pageMask.toNat = 2 ^ 64 - 4096 := by decide

theorem not_pageMask_toNat : (~~~pageMask).toNat = 2 ^ 12 - 1 := by decide

theorem mask_toNat : mask.toNat = 2 ^ 48 - 1 := by decide

/-- **The masks.**  Thirty-six bits of the frame number, and the offset in the page. -/
theorem toNat_physAddr (pte vaddr : UInt64) : (physAddr pte vaddr).toNat =
    pte.toNat / 2 ^ 12 % 2 ^ 36 * 4096 + vaddr.toNat % 4096 := by
  have hlt : pte.toNat / 2 ^ 12 < 2 ^ 52 := by
    have := pte.toNat_lt
    omega
  have hoffset : (vaddr.toNat &&& (2 ^ 12 - 1)) = vaddr.toNat % 2 ^ 12 :=
    Nat.and_two_pow_sub_one_eq_mod _ _
  have hnat : (physAddr pte vaddr).toNat =
      ((pte.toNat &&& (2 ^ 64 - 4096)) ||| vaddr.toNat % 2 ^ 12) &&& (2 ^ 48 - 1) := by
    rw [physAddr, UInt64.toNat_and, UInt64.toNat_or, UInt64.toNat_and, UInt64.toNat_and,
      pageMask_toNat, not_pageMask_toNat, mask_toNat, hoffset]
  have hhigh : (physAddr pte vaddr).toNat / 2 ^ 12 = pte.toNat / 2 ^ 12 % 2 ^ 36 := by
    have hmask : (2 ^ 64 - 4096) / 2 ^ 12 = 2 ^ 52 - 1 := by decide
    have hmask' : (2 ^ 48 - 1) / 2 ^ 12 = 2 ^ 36 - 1 := by decide
    have hzero : vaddr.toNat % 2 ^ 12 / 2 ^ 12 = 0 := Nat.div_eq_of_lt (Nat.mod_lt _ (by decide))
    rw [hnat, Nat.and_div_two_pow, Nat.or_div_two_pow, Nat.and_div_two_pow, hmask, hmask', hzero,
      Nat.or_zero, Nat.and_two_pow_sub_one_eq_mod, Nat.and_two_pow_sub_one_eq_mod,
      Nat.mod_eq_of_lt hlt]
  have hlow : (physAddr pte vaddr).toNat % 2 ^ 12 = vaddr.toNat % 2 ^ 12 := by
    have hmask : (2 ^ 64 - 4096) % 2 ^ 12 = 0 := by decide
    have hmask' : (2 ^ 48 - 1) % 2 ^ 12 = 2 ^ 12 - 1 := by decide
    rw [hnat, Nat.and_mod_two_pow, Nat.or_mod_two_pow, Nat.and_mod_two_pow, hmask, hmask',
      Nat.and_zero, Nat.zero_or, Nat.mod_mod, Nat.and_two_pow_sub_one_eq_mod, Nat.mod_mod]
  omega

theorem toNat_physAddr_of_frame (vaddr : UInt64) (h : frame pte < 2 ^ 36) :
    (physAddr pte vaddr).toNat = frame pte * 4096 + vaddr.toNat % 4096 := by
  have hframe : pte.toNat / 2 ^ 12 % 2 ^ 36 = frame pte := by
    rw [frame] at h ⊢
    omega
  rw [toNat_physAddr, hframe]

/-! ### The walk -/

theorem WalksTo.unique {pte' : UInt64} (h : WalksTo mm vaddr pte) (h' : WalksTo mm vaddr pte') :
    pte = pte' := by
  obtain ⟨pgd, p4d, pud, pmd, h1, h2, h3, h4, rfl⟩ := h
  obtain ⟨pgd', p4d', pud', pmd', h1', h2', h3', h4', rfl⟩ := h'
  obtain rfl := Entry.table.inj (h1.symm.trans h1')
  obtain rfl := Entry.table.inj (h2.symm.trans h2')
  obtain rfl := Entry.table.inj (h3.symm.trans h3')
  obtain rfl := Entry.table.inj (h4.symm.trans h4')
  rfl

/-- **The walk of the code** comes to the entries that are not empty. -/
theorem walk_eq_some_iff : walk mm vaddr = some pte ↔ WalksTo mm vaddr pte ∧ pte ≠ 0 := by
  constructor
  · intro h
    rw [walk] at h
    cases h1 : pgdOffset mm vaddr with
    | none | bad => rw [h1] at h; cases h
    | table pgd =>
      simp only [h1] at h
      cases h2 : p4dOffset pgd vaddr with
      | none | bad => rw [h2] at h; cases h
      | table p4d =>
        simp only [h2] at h
        cases h3 : pudOffset p4d vaddr with
        | none | bad => rw [h3] at h; cases h
        | table pud =>
          simp only [h3] at h
          cases h4 : pmdOffset pud vaddr with
          | none | bad => rw [h4] at h; cases h
          | table pmd =>
            simp only [h4] at h
            split_ifs at h with hzero
            rw [← Option.some.inj h]
            exact ⟨⟨pgd, p4d, pud, pmd, h1, h2, h3, h4, rfl⟩, hzero⟩
  · rintro ⟨⟨pgd, p4d, pud, pmd, h1, h2, h3, h4, h5⟩, hne⟩
    simp only [walk, pgdOffset, p4dOffset, pudOffset, pmdOffset, pteOffsetKernel, h1, h2, h3, h4, h5,
      if_neg hne]

/-! ### The answer -/

variable {τ : Type*} {P : Processes τ} {task : τ} {user : List UInt8}

/-- **What a read of a whole packet answers.** -/
theorem readOutput_eq (stale : Packet) (hfind : P.find (packetPid user) = some task)
    (hmm : P.mm task = some mm) (hlen : packetSize ≤ user.length) :
    readOutput P stale true true user packetSize =
      match walk mm (packetVaddr user) with
      | none => .returned (-22) user
      | some pte => .returned packetSize (setField (user.take packetSize) 16 8
          (physAddr pte (packetVaddr user)).toNat ++ user.drop packetSize) := by
  have hpckt : user.take packetSize ++ stale.bytes.drop packetSize = user.take packetSize := by
    rw [List.drop_eq_nil_of_le (Nat.le_of_eq stale.length_eq), List.append_nil]
  have hfour : 0 + 4 ≤ packetSize := by decide
  have hsixteen : 8 + 8 ≤ packetSize := by decide
  have hpid : packetPid (user.take packetSize) = packetPid user :=
    congrArg (fun n : ℕ => Int.bmod n (2 ^ 32)) (field_take hfour user)
  have hvaddr : packetVaddr (user.take packetSize) = packetVaddr user :=
    congrArg UInt64.ofNat (field_take hsixteen user)
  have hread : ¬ (true = false ∨ user.length < packetSize) := by
    rw [not_or]
    exact ⟨by decide, Nat.not_lt.mpr hlen⟩
  rw [readOutput, if_neg (Nat.lt_irrefl _), if_neg hread, hpckt]
  simp only [hpid, hvaddr, hfind, hmm]
  cases walk mm (packetVaddr user) with
  | none => rfl
  | some pte =>
    dsimp only
    rw [copyBack, if_neg (by decide), if_neg (Nat.not_lt.mpr hlen)]

/-- The answer is that of the hardware: success exactly where the walk ends in a present page, with its
address when the frame number is below 2^36, and otherwise `-EINVAL` with the packet untouched. -/
def Reports (mm : PgdTable) (user : List UInt8) (answer : Answer) : Prop :=
  ∃ ret user', answer = .returned ret user' ∧
    (ret = packetSize ↔ ∃ pte, WalksTo mm (packetVaddr user) pte ∧ Present pte) ∧
    (∀ pte, WalksTo mm (packetVaddr user) pte → Present pte → frame pte < 2 ^ 36 →
      field user' 16 8 = frame pte * 4096 + (packetVaddr user).toNat % 4096) ∧
    ((¬ ∃ pte, WalksTo mm (packetVaddr user) pte ∧ Present pte) → ret = -22 ∧ user' = user)

theorem Present.ne_zero (h : Present pte) : pte ≠ 0 := by
  rintro rfl
  cases h

/-- Where the walk ends in an empty entry or none, the read fails as it must. -/
theorem reports_of_walk_none (h : walk mm (packetVaddr user) = none) :
    Reports mm user (.returned (-22) user) := by
  have hnone : ¬ ∃ pte, WalksTo mm (packetVaddr user) pte ∧ Present pte := by
    rintro ⟨pte, hpte, hpresent⟩
    have hsome := walk_eq_some_iff.mpr ⟨hpte, hpresent.ne_zero⟩
    rw [h] at hsome
    cases hsome
  refine ⟨-22, user, rfl, ⟨fun h22 => absurd h22 (by decide), fun hsome => absurd hsome hnone⟩, ?_, ?_⟩
  · intro pte hpte hpresent
    exact absurd ⟨pte, hpte, hpresent⟩ hnone
  · intro _
    exact ⟨rfl, rfl⟩

/-- Where it ends in a present entry, the address is reported. -/
theorem reports_of_present (hwalks : WalksTo mm (packetVaddr user) pte) (hpresent : Present pte)
    (hlen : packetSize ≤ user.length) :
    Reports mm user (.returned packetSize (setField (user.take packetSize) 16 8
      (physAddr pte (packetVaddr user)).toNat ++ user.drop packetSize)) := by
  refine ⟨packetSize, _, rfl, ⟨fun _ => ⟨pte, hwalks, hpresent⟩, fun _ => rfl⟩, ?_, ?_⟩
  · intro pte' hwalks' _ hframe
    obtain rfl := hwalks.unique hwalks'
    have hfits : 16 + 8 ≤ (user.take packetSize).length := by
      rw [List.length_take, Nat.min_eq_left hlen]
      decide
    have hword : (physAddr pte (packetVaddr user)).toNat < 256 ^ 8 :=
      (physAddr pte (packetVaddr user)).toNat_lt
    rw [field_setField hfits hword, toNat_physAddr_of_frame _ hframe]
  · intro hnone
    exact absurd ⟨pte, hwalks, hpresent⟩ hnone

/-- An entry that is neither empty nor present is reported as a page. -/
theorem not_reports_of_swapped {user' : List UInt8} (hwalks : WalksTo mm (packetVaddr user) pte)
    (habsent : ¬ Present pte) : ¬ Reports mm user (.returned packetSize user') := by
  rintro ⟨ret, user'', hanswer, hsuccess, -⟩
  obtain ⟨rfl, -⟩ := Answer.returned.inj hanswer
  obtain ⟨pte', hwalks', hpresent⟩ := hsuccess.mp rfl
  obtain rfl := hwalks.unique hwalks'
  exact habsent hpresent

/-- **The page tables that are read right.**  For a process with page tables, a read of a whole packet
answers what the hardware does if and only if the walk does not end in an entry that is not empty and
not present. -/
theorem reports_iff (P : Processes τ) (stale : Packet) (user : List UInt8) (task : τ) (mm : PgdTable)
    (hfind : P.find (packetPid user) = some task) (hmm : P.mm task = some mm)
    (hlen : packetSize ≤ user.length) :
    Reports mm user (readOutput P stale true true user packetSize) ↔
      ∀ pte, WalksTo mm (packetVaddr user) pte → pte ≠ 0 → Present pte := by
  rw [readOutput_eq stale hfind hmm hlen]
  cases hwalk : walk mm (packetVaddr user) with
  | none =>
    refine ⟨fun _ pte hpte hne => ?_, fun _ => reports_of_walk_none hwalk⟩
    rw [walk_eq_some_iff.mpr ⟨hpte, hne⟩] at hwalk
    cases hwalk
  | some pte =>
    obtain ⟨hwalks, hne⟩ := walk_eq_some_iff.mp hwalk
    constructor
    · intro hreports pte' hwalks' _
      obtain rfl := hwalks.unique hwalks'
      by_contra habsent
      exact not_reports_of_swapped hwalks habsent hreports
    · intro hpresent
      exact reports_of_present hwalks (hpresent pte hwalks hne) hlen

/-- Tables all of whose entries lead to one page-table entry. -/
def flatTables (pte : UInt64) : PgdTable :=
  fun _ => .table fun _ => .table fun _ => .table fun _ => .table fun _ => pte

theorem walksTo_flatTables {pte' : UInt64} :
    WalksTo (flatTables pte) vaddr pte' ↔ pte' = pte := by
  have hwalks : WalksTo (flatTables pte) vaddr pte := ⟨_, _, _, _, rfl, rfl, rfl, rfl, rfl⟩
  constructor
  · intro h
    exact h.unique hwalks
  · intro h
    rw [h]
    exact hwalks

/-- The process with pid 100 and these tables. -/
def oneProcess (pte : UInt64) : Processes Unit where
  find nr := if nr = 100 then some () else none
  mm _ := some (flatTables pte)

/-- A packet of zeros. -/
def zeroPacket : Packet := ⟨List.replicate packetSize 0, List.length_replicate⟩

/-- A packet with pid 100 and the virtual address `0x7f0000001234`. -/
def askPacket : List UInt8 := leBytes 8 100 ++ (leBytes 8 0x7f0000001234 ++ leBytes 8 0)

/-- A writable page at `0xff000` that must not be executed. -/
theorem reports_iff_page : Reports (flatTables 0x80000000000ff267) askPacket
    (readOutput (oneProcess 0x80000000000ff267) zeroPacket true true askPacket packetSize) :=
  (reports_iff (oneProcess 0x80000000000ff267) zeroPacket askPacket () (flatTables 0x80000000000ff267)
    (by decide) rfl (by decide)).mpr (by
      intro pte hpte _
      rw [walksTo_flatTables.mp hpte]
      show (0x80000000000ff267 : UInt64).toNat % 2 = 1
      decide)

/-- **A page that is swapped out is reported as present.**  Its entry is the one of offset 63 in the first
swap area. -/
theorem swapped_out_reported : ¬ ∀ (τ : Type) (P : Processes τ) (stale : Packet)
    (user : List UInt8) (task : τ) (mm : PgdTable), P.find (packetPid user) = some task →
      P.mm task = some mm → packetSize ≤ user.length →
        Reports mm user (readOutput P stale true true user packetSize) := by
  intro hall
  have hfind : (oneProcess 0x07ffffffffff8000).find (packetPid askPacket) = some () := by decide
  have hreports := hall Unit _ zeroPacket askPacket () _ hfind rfl (by decide)
  have hwalks : WalksTo (flatTables 0x07ffffffffff8000) (packetVaddr askPacket) 0x07ffffffffff8000 :=
    walksTo_flatTables.mpr rfl
  have hwalk := walk_eq_some_iff.mpr ⟨hwalks, by decide⟩
  rw [readOutput_eq zeroPacket hfind rfl (by decide), hwalk] at hreports
  exact not_reports_of_swapped hwalks (by
    show ¬ (0x07ffffffffff8000 : UInt64).toNat % 2 = 1
    decide) hreports

end SystemProgramming.KernelLab
