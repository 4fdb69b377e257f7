import RadixDb.Index.Page
import RadixDb.Key.RoundTrip

/-!
# Reading a page that was written

The fields of the header and of the directory entries are read back at their offsets
(`readWord_header`, `readWord_descriptor`), and the areas are where the header says
(`Written.areas`). So **the reader accepts a written page exactly if the entries are within the
limit on memory, and gives its entries away in order** (`Written.visitPageEntries_eq`).

Pages that were checked before are read without checks; for this the bytes of a directory entry, of
a key and of a posting are found at their places (`Written.getRange_entry` and the lemmas after it).
-/

namespace RadixDb.IndexPage

open List Bytes Nat

/-! ## Headers -/

/-- The fields of a header. The magic bytes are read as a number here. -/
def headerFields (kind : PageKind) (entryCount keyBytes postingBytes bodyCrc : ℕ) : List (ℕ × ℕ) :=
  [(4, Bytes.leNat kind.magic), (2, pageVersion), (2, 0), (4, entryCount),
    (4, entryCount * entryBytes), (8, keyBytes), (8, postingBytes), (4, bodyCrc), (4, 0)]

section

variable (kind : PageKind) (entryCount keyBytes postingBytes bodyCrc : ℕ)

theorem header_eq_fields :
    header kind entryCount keyBytes postingBytes bodyCrc =
      Bytes.fields (headerFields kind entryCount keyBytes postingBytes bodyCrc) := by
  have hmagic : leBytes 4 (leNat kind.magic) = kind.magic := by
    have h := leBytes_leNat kind.magic
    rwa [kind.magic_length] at h
  simp [header, headerFields, fields, hmagic]

theorem length_header :
    (header kind entryCount keyBytes postingBytes bodyCrc).length = pageHeaderBytes := by
  rw [header_eq_fields, length_fields]
  rfl

theorem readWord_header {entryCount keyBytes postingBytes bodyCrc : ℕ} (rest : Bytes)
    (hcount : entryCount * entryBytes < 2 ^ 32) (hkeys : keyBytes < 2 ^ 64)
    (hposts : postingBytes < 2 ^ 64) (hcrc : bodyCrc < 2 ^ 32) :
    let page := header kind entryCount keyBytes postingBytes bodyCrc ++ rest
    page.take 4 = kind.magic ∧ readWord 2 page 4 = pageVersion ∧ readWord 2 page 6 = 0 ∧
      readWord 4 page 8 = entryCount ∧ readWord 4 page 12 = entryCount * entryBytes ∧
      readWord 8 page 16 = keyBytes ∧ readWord 8 page 24 = postingBytes ∧
      readWord 4 page 32 = bodyCrc ∧ readWord 4 page 36 = 0 := by
  have hents : entryCount < 256 ^ 4 := by
    rw [entryBytes] at hcount
    omega
  have hfield :=
    readWord_fields (header_eq_fields kind entryCount keyBytes postingBytes bodyCrc) rest
  refine ⟨?_, hfield 1 rfl (by decide), hfield 2 rfl (by decide), hfield 3 rfl hents,
    hfield 4 rfl hcount, hfield 5 rfl hkeys, hfield 6 rfl hposts, hfield 7 rfl hcrc,
    hfield 8 rfl (by decide)⟩
  simp only [header, append_assoc]
  exact take_left' kind.magic_length

end

/-! ## Directory entries -/

/-- The flags of an entry are known ones, and say what they were made of. -/
theorem entryFlags_spec (hasNull : Bool) (state : PostingFragmentState) :
    entryFlags hasNull state &&& knownEntryFlags = entryFlags hasNull state ∧
      (entryFlags hasNull state &&& nullComponentFlag != 0) = hasNull ∧
      PostingFragmentState.fromFlags (entryFlags hasNull state) = state := by
  obtain ⟨hasPrevious, hasNext⟩ := state
  revert hasNull hasPrevious hasNext
  decide

def descriptorFields (crc : Crc) (slot : PageSlot) (k p : ℕ) : List (ℕ × ℕ) :=
  [(4, k), (4, slot.key.length), (4, p), (4, slot.posting.length), (4, slot.rowCount),
    (4, slot.flags), (4, (crc slot.key).toNat), (4, (crc slot.posting).toNat)]

section

variable (crc : Crc) (slot : PageSlot)

theorem length_descriptor (k p : ℕ) : (descriptor crc slot k p).length = entryBytes := by
  rfl

theorem length_directory (slots : List PageSlot) (k p : ℕ) :
    (directory crc slots k p).length = slots.length * entryBytes := by
  induction slots generalizing k p with
  | nil => simp [directory]
  | cons slot slots ih =>
    rw [directory, length_append, length_descriptor, ih, length_cons, succ_mul, add_comm]

theorem readWord_descriptor {k p : ℕ} (hk : k < 2 ^ 32) (hp : p < 2 ^ 32)
    (hkey : slot.key.length < 2 ^ 32) (hpost : slot.posting.length < 2 ^ 32)
    (hrows : slot.rowCount < 2 ^ 32) (hflags : slot.flags < 2 ^ 32) :
    let d := descriptor crc slot k p
    readWord 4 d 0 = k ∧ readWord 4 d 4 = slot.key.length ∧ readWord 4 d 8 = p ∧
      readWord 4 d 12 = slot.posting.length ∧ readWord 4 d 16 = slot.rowCount ∧
      readWord 4 d 20 = slot.flags ∧ readWord 4 d 24 = (crc slot.key).toNat ∧
      readWord 4 d 28 = (crc slot.posting).toNat := by
  have hfield := readWord_record
    (show descriptor crc slot k p = fields (descriptorFields crc slot k p) from rfl)
  exact ⟨hfield 0 rfl hk, hfield 1 rfl hkey, hfield 2 rfl hp, hfield 3 rfl hpost,
    hfield 4 rfl hrows, hfield 5 rfl hflags, hfield 6 rfl (crc slot.key).toNat_lt,
    hfield 7 rfl (crc slot.posting).toNat_lt⟩

theorem directory_append (before after : List PageSlot) (k p : ℕ) :
    directory crc (before ++ after) k p = directory crc before k p ++
      directory crc after (k + (keyArea before).length) (p + (postingArea before).length) := by
  induction before generalizing k p with
  | nil => rfl
  | cons slot before ih =>
    simp [directory, ih, keyArea, postingArea, add_assoc]

end

/-! ## Areas -/

section

variable (before after : List PageSlot) (slot : PageSlot)

theorem keyArea_split :
    keyArea (before ++ slot :: after) = keyArea before ++ slot.key ++ keyArea after := by
  simp [keyArea]

theorem postingArea_split :
    postingArea (before ++ slot :: after) =
      postingArea before ++ slot.posting ++ postingArea after := by
  simp [postingArea]

end

/-- A range that starts after the first `n` bytes. -/
theorem getRange_of_drop {bytes before middle : Bytes} {n : ℕ} (after : Bytes)
    (h : bytes.drop n = before ++ middle ++ after) (hn : n ≤ bytes.length) :
    getRange bytes (n + before.length) (n + before.length + middle.length) = some middle := by
  have hsplit : bytes = (bytes.take n ++ before) ++ middle ++ after := by
    conv_lhs => rw [← take_append_drop n bytes, h]
    simp
  have hlen : n + before.length = (bytes.take n ++ before).length := by
    rw [length_append, length_take, min_eq_left hn]
  conv_lhs => rw [hsplit]
  exact getRange_append _ _ _ _ _ hlen rfl

/-! ## Written pages -/

/-- A page that is made has its data, and is within the limits. -/
theorem newPageSpec_eq {bytes : Bytes} {codec : IndexPageCodec} {count minimum maximum : ℕ}
    {page : IndexPageSpec} (h : newPageSpec bytes codec count minimum maximum = .ok page) :
    page = ⟨bytes, codec, count, minimum, maximum⟩ ∧ count ≠ 0 ∧ count ≤ maxEntriesPerIndexPage ∧
      bytes.length ≤ maxLogicalBytesPerIndexPage := by
  simp only [newPageSpec] at h
  split_ifs at h with hempty hlong hcount hhash
  rw [not_or, not_lt] at hcount
  exact ⟨(Except.ok.inj h).symm, hcount.1, hcount.2, not_lt.mp hlong⟩

/-- What the writers make sure of for every entry. -/
structure SlotOk (slot : PageSlot) : Prop where
  key_pos : 0 < slot.key.length
  key_le : slot.key.length ≤ maxIndexKeyBytes
  rows_pos : 0 < slot.rowCount
  rows_le : slot.rowCount ≤ slot.posting.length
  flags_known : slot.flags &&& knownEntryFlags = slot.flags

/-- A page as the writers write it. -/
structure Written (kind : PageKind) (crc : Crc) (slots : List PageSlot)
    (page : IndexPageSpec) : Prop where
  slots_ok : ∀ slot ∈ slots, SlotOk slot
  encoded : ∃ codec, encodePage kind crc codec slots (keyArea slots).length
    (postingArea slots).length = .ok page

/-- What the header of a page of the entries says. -/
def areasOf (slots : List PageSlot) : Areas :=
  ⟨slots.length, slots.length * entryBytes, (keyArea slots).length, (postingArea slots).length⟩

/-- What the reader counts for the entries of a page in memory. -/
def decodedBytes (base : ℕ) (slots : List PageSlot) : ℕ :=
  base + (slots.map fun slot => slot.rowCount * 8).sum

namespace Written

variable {kind : PageKind} {crc : Crc} {slots : List PageSlot} {page : IndexPageSpec}

section

variable (h : Written kind crc slots page)

include h

/-- The bytes of a written page, and that they are within the limits. -/
theorem page_eq :
    page.logicalBytes = header kind slots.length (keyArea slots).length (postingArea slots).length
        (crc (body crc slots)).toNat ++ body crc slots ∧
      page.itemCount = slots.length ∧ page.minimumKeyHash = minimumHash (slots.map (·.key)) ∧
      page.maximumKeyHash = maximumHash (slots.map (·.key)) ∧ slots ≠ [] ∧
      slots.length ≤ maxEntriesPerIndexPage ∧
      page.logicalBytes.length ≤ maxLogicalBytesPerIndexPage := by
  obtain ⟨codec, hpage⟩ := h.encoded
  obtain ⟨rfl, hcount, hmax, hlong⟩ := newPageSpec_eq hpage
  exact ⟨rfl, rfl, rfl, rfl, fun hnil => hcount (by rw [hnil]; rfl), hmax, hlong⟩

theorem slots_ne : slots ≠ [] := h.page_eq.2.2.2.2.1

theorem length_eq :
    page.logicalBytes.length = pageHeaderBytes + slots.length * entryBytes +
      (keyArea slots).length + (postingArea slots).length := by
  rw [h.page_eq.1]
  simp [length_header, body, length_directory, add_assoc]

theorem small :
    slots.length * entryBytes < 2 ^ 32 ∧ (keyArea slots).length < 2 ^ 32 ∧
      (postingArea slots).length < 2 ^ 32 := by
  have hlen := h.length_eq
  have hmax := h.page_eq.2.2.2.2.2.2
  rw [maxLogicalBytesPerIndexPage] at hmax
  omega

theorem readWord_page :
    page.logicalBytes.take 4 = kind.magic ∧ readWord 2 page.logicalBytes 4 = pageVersion ∧
      readWord 2 page.logicalBytes 6 = 0 ∧ readWord 4 page.logicalBytes 8 = slots.length ∧
      readWord 4 page.logicalBytes 12 = slots.length * entryBytes ∧
      readWord 8 page.logicalBytes 16 = (keyArea slots).length ∧
      readWord 8 page.logicalBytes 24 = (postingArea slots).length ∧
      readWord 4 page.logicalBytes 32 = (crc (body crc slots)).toNat ∧
      readWord 4 page.logicalBytes 36 = 0 := by
  obtain ⟨hcount, hkeys, hposts⟩ := h.small
  rw [h.page_eq.1]
  exact readWord_header kind (body crc slots) hcount (lt_trans hkeys (by decide))
    (lt_trans hposts (by decide)) (crc (body crc slots)).toNat_lt

/-- The bytes of a written page after its header, after its directory and after its keys. -/
theorem areas :
    page.logicalBytes.drop pageHeaderBytes = body crc slots ∧
      page.logicalBytes.drop (pageHeaderBytes + slots.length * entryBytes) =
        keyArea slots ++ postingArea slots ∧
      page.logicalBytes.drop (pageHeaderBytes + slots.length * entryBytes +
        (keyArea slots).length) = postingArea slots := by
  have hbody : page.logicalBytes.drop pageHeaderBytes = body crc slots := by
    rw [h.page_eq.1]
    exact drop_left' (length_header kind _ _ _ _)
  have hkeys : page.logicalBytes.drop (pageHeaderBytes + slots.length * entryBytes) =
      keyArea slots ++ postingArea slots := by
    rw [← drop_drop, hbody, body, append_assoc]
    exact drop_left' (length_directory crc slots 0 0)
  refine ⟨hbody, hkeys, ?_⟩
  rw [← drop_drop, hkeys]
  exact drop_left' rfl

/-- **The header** of a written page is accepted. -/
theorem readAreas_eq {minimum : ℕ} (hmin : minimum ≤ 1) :
    readAreas kind crc minimum page page.logicalBytes = .ok (areasOf slots) := by
  obtain ⟨-, hitems, -, -, hne, hmax, -⟩ := h.page_eq
  obtain ⟨hmagic, h4, h6, h8, h12, h16, h24, h32, h36⟩ := h.readWord_page
  have hlen := h.length_eq
  have hpos := length_pos_of_ne_nil hne
  have hlong : ¬ page.logicalBytes.length < pageHeaderBytes := by omega
  have hcount : ¬ (slots.length < minimum ∨ maxEntriesPerIndexPage < slots.length) := by omega
  simp [readAreas, h4, h6, h8, h12, h16, h24, h32, h36, hmagic, h.areas.1, hlong, ← hlen, hitems,
    if_neg hcount, areasOf]

end

/-! ## Entries of a written page -/

section

variable {before after : List PageSlot} {slot : PageSlot}

section

variable (h : Written kind crc (before ++ slot :: after) page)

include h

theorem entry_at :
    (page.logicalBytes.drop (pageHeaderBytes + before.length * entryBytes)).take entryBytes =
      descriptor crc slot (keyArea before).length (postingArea before).length := by
  have hdrop : page.logicalBytes.drop (pageHeaderBytes + before.length * entryBytes) =
      descriptor crc slot (keyArea before).length (postingArea before).length ++
        (directory crc after ((keyArea before).length + slot.key.length)
          ((postingArea before).length + slot.posting.length) ++
          (keyArea (before ++ slot :: after) ++ postingArea (before ++ slot :: after))) := by
    rw [← drop_drop, h.areas.1, body, directory_append, append_assoc, append_assoc,
      drop_left' (length_directory crc before 0 0), directory]
    simp
  rw [hdrop]
  exact take_left' (length_descriptor crc slot _ _)

theorem small_entry :
    (keyArea before).length < 2 ^ 32 ∧ (postingArea before).length < 2 ^ 32 ∧
      slot.key.length < 2 ^ 32 ∧ slot.posting.length < 2 ^ 32 ∧ slot.rowCount < 2 ^ 32 ∧
      slot.flags < 2 ^ 32 := by
  obtain ⟨-, hkeys, hposts⟩ := h.small
  have hok := h.slots_ok slot (by simp)
  have hrows := hok.rows_le
  have hflags : slot.flags ≤ 7 := by
    rw [← hok.flags_known]
    exact and_le_right
  rw [keyArea_split, length_append, length_append] at hkeys
  rw [postingArea_split, length_append, length_append] at hposts
  omega

theorem readWord_entry :
    let d := (page.logicalBytes.drop (pageHeaderBytes + before.length * entryBytes)).take entryBytes
    readWord 4 d 0 = (keyArea before).length ∧ readWord 4 d 4 = slot.key.length ∧
      readWord 4 d 8 = (postingArea before).length ∧ readWord 4 d 12 = slot.posting.length ∧
      readWord 4 d 16 = slot.rowCount ∧ readWord 4 d 20 = slot.flags ∧
      readWord 4 d 24 = (crc slot.key).toNat ∧ readWord 4 d 28 = (crc slot.posting).toNat := by
  obtain ⟨hk, hp, hkey, hpost, hrows, hflags⟩ := h.small_entry
  intro d
  simp only [d, h.entry_at]
  exact readWord_descriptor crc slot hk hp hkey hpost hrows hflags

/-- **One entry** of a written page is accepted. -/
theorem readSlot_eq :
    readSlot kind crc (keyArea (before ++ slot :: after)) (postingArea (before ++ slot :: after))
        ((page.logicalBytes.drop (pageHeaderBytes + before.length * entryBytes)).take entryBytes)
        (keyArea before).length (postingArea before).length = .ok slot := by
  have hok := h.slots_ok slot (by simp)
  obtain ⟨h0, h4, h8, h12, h16, h20, h24, h28⟩ := h.readWord_entry
  have hkey := getRange_append (keyArea before).length ((keyArea before).length + slot.key.length)
    (keyArea before) slot.key (keyArea after) rfl rfl
  have hpost := getRange_append (postingArea before).length
    ((postingArea before).length + slot.posting.length) (postingArea before) slot.posting
    (postingArea after) rfl rfl
  rw [← keyArea_split] at hkey
  rw [← postingArea_split] at hpost
  have hkeyPos : slot.key.length ≠ 0 := ne_of_gt hok.key_pos
  have hlens : ¬ (maxIndexKeyBytes < slot.key.length ∨ slot.posting.length = 0 ∨
      slot.rowCount = 0) := by
    have := hok.key_le
    have := hok.rows_pos
    have := hok.rows_le
    omega
  unfold readSlot
  simp only [h0, h4, h8, h12, h16, h20, h24, h28, hkeyPos, if_neg hlens, hok.flags_known, hkey,
    hpost, ne_eq, not_true_eq_false, or_self, if_false]

end

end

theorem allocation_eq (h : Written kind crc slots page) (base : ℕ) :
    validateDecodeAllocation kind base page.logicalBytes slots.length =
      if maxPageDecodeBytes < decodedBytes base slots then
        .error (.limit (kind.name ++ " page decoded bytes") (decodedBytes base slots)
          maxPageDecodeBytes)
      else .ok () := by
  have hfields : ∀ i (hi : i < slots.length),
      readWord 4 ((page.logicalBytes.drop (pageHeaderBytes + i * entryBytes)).take entryBytes) 12 =
        slots[i].posting.length ∧
      readWord 4 ((page.logicalBytes.drop (pageHeaderBytes + i * entryBytes)).take entryBytes) 16 =
        slots[i].rowCount := by
    intro i hi
    have hsplit : slots = slots.take i ++ slots[i] :: slots.drop (i + 1) := by
      rw [← drop_eq_getElem_cons hi, take_append_drop]
    have hentry : Written kind crc (slots.take i ++ slots[i] :: slots.drop (i + 1)) page :=
      hsplit ▸ h
    obtain ⟨-, -, -, h12, h16, -⟩ := hentry.readWord_entry
    rw [length_take, min_eq_left (le_of_lt hi)] at h12 h16
    exact ⟨h12, h16⟩
  have hshort : ¬ ((range slots.length).any fun i =>
      decide (readWord 4 ((page.logicalBytes.drop (pageHeaderBytes + i * entryBytes)).take
        entryBytes) 12 < readWord 4 ((page.logicalBytes.drop
          (pageHeaderBytes + i * entryBytes)).take entryBytes) 16)) = true := by
    simp only [any_eq_true, mem_range, decide_eq_true_eq, not_exists, not_and, not_lt]
    intro i hi
    rw [(hfields i hi).1, (hfields i hi).2]
    exact (h.slots_ok _ (getElem_mem hi)).rows_le
  have hsum : ((range slots.length).map fun i => readWord 4 ((page.logicalBytes.drop
      (pageHeaderBytes + i * entryBytes)).take entryBytes) 16 * 8) =
        slots.map fun slot => slot.rowCount * 8 := by
    refine ext_getElem (by simp) fun i h1 h2 => ?_
    simp only [length_map, length_range] at h1
    simp only [getElem_map, getElem_range, (hfields i h1).2]
  simp only [validateDecodeAllocation, if_neg hshort, hsum]
  rfl

section

variable {σ : Type} (step : σ → PageSlot → FormatResult σ)

/-- The loop over the directory, from any entry on. -/
theorem visitSlots_from (before after : List PageSlot) (cursor : Cursor) (s : σ)
    (h : Written kind crc (before ++ after) page) (hkey : cursor.nextKey = (keyArea before).length)
    (hpost : cursor.nextPosting = (postingArea before).length) :
    visitSlots kind crc step page.logicalBytes (keyArea (before ++ after))
        (postingArea (before ++ after)) after.length before.length cursor s =
      (after.foldlM step s).map fun s => (after.foldl Cursor.next cursor, s) := by
  induction after generalizing before cursor s with
  | nil => rfl
  | cons slot after ih =>
    have hslot := h.readSlot_eq
    rw [← hkey, ← hpost] at hslot
    simp only [length_cons, visitSlots, hslot, foldlM_cons, foldl_cons, ok_bind]
    cases step s slot with
    | error e => rfl
    | ok s' =>
      have happ : before ++ slot :: after = (before ++ [slot]) ++ after := by simp
      have hmore := ih (before ++ [slot]) (cursor.next slot) s' (happ ▸ h)
        (by simp [Cursor.next, hkey, keyArea]) (by simp [Cursor.next, hpost, postingArea])
      rwa [← happ, length_append, length_singleton] at hmore

theorem foldl_next (cursor : Cursor) (slots : List PageSlot) :
    slots.foldl Cursor.next cursor = ⟨cursor.nextKey + (keyArea slots).length,
      cursor.nextPosting + (postingArea slots).length,
      (slots.map (·.key)).foldl (fun hash key => min hash (diagnosticKeyHash key))
        cursor.minimumHash,
      (slots.map (·.key)).foldl (fun hash key => max hash (diagnosticKeyHash key))
        cursor.maximumHash⟩ := by
  induction slots generalizing cursor with
  | nil => rfl
  | cons slot slots ih =>
    rw [foldl_cons, ih]
    simp [Cursor.next, keyArea, postingArea, add_assoc]

/-- **The entries of a written page** are given away in order, if they are within the limit on
memory. -/
theorem visitPageEntries_eq (h : Written kind crc slots page) (base : ℕ) (s : σ) :
    visitPageEntries kind crc step base page (areasOf slots) page.logicalBytes s =
      if maxPageDecodeBytes < decodedBytes base slots then
        .error (.limit (kind.name ++ " page decoded bytes") (decodedBytes base slots)
          maxPageDecodeBytes)
      else slots.foldlM step s := by
  obtain ⟨-, -, hmin, hmax, -⟩ := h.page_eq
  obtain ⟨-, hkeys, hposts⟩ := h.areas
  have hkeyArea : (areasOf slots).keyArea page.logicalBytes = keyArea slots := by
    rw [Areas.keyArea, areasOf, hkeys]
    exact take_left' rfl
  have hpostingArea : (areasOf slots).postingArea page.logicalBytes = postingArea slots := hposts
  have hloop := visitSlots_from step [] slots .new s h rfl rfl
  rw [nil_append, length_nil, foldl_next] at hloop
  simp only [visitPageEntries, h.allocation_eq base, hkeyArea, hpostingArea, hloop, bind,
    Except.bind, show (areasOf slots).entryCount = slots.length from rfl]
  split_ifs with hlimit
  · rfl
  · cases slots.foldlM step s with
    | error e => rfl
    | ok s' =>
      simp [Except.map, Cursor.new, hmin, hmax, minimumHash, maximumHash]

end

/-! ## Places in a written page -/

section

variable {before after : List PageSlot} {slot : PageSlot}

section

variable (h : Written kind crc (before ++ slot :: after) page)

include h

theorem getRange_entry :
    getRange page.logicalBytes (pageHeaderBytes + before.length * entryBytes)
        (pageHeaderBytes + (before.length + 1) * entryBytes) =
      some ((page.logicalBytes.drop (pageHeaderBytes + before.length * entryBytes)).take
        entryBytes) := by
  have hlen := h.length_eq
  rw [length_append, length_cons] at hlen
  have hend : pageHeaderBytes + (before.length + 1) * entryBytes -
      (pageHeaderBytes + before.length * entryBytes) = entryBytes := by
    rw [succ_mul]
    omega
  rw [getRange, if_pos, hend]
  rw [succ_mul]
  rw [show before.length + (after.length + 1) = before.length + 1 + after.length by omega,
    add_mul, succ_mul] at hlen
  omega

theorem getRange_key :
    getRange page.logicalBytes
        (pageHeaderBytes + (before ++ slot :: after).length * entryBytes + (keyArea before).length)
        (pageHeaderBytes + (before ++ slot :: after).length * entryBytes + (keyArea before).length +
          slot.key.length) = some slot.key := by
  have hlen := h.length_eq
  refine getRange_of_drop (keyArea after ++ postingArea (before ++ slot :: after)) ?_ (by omega)
  simp only [h.areas.2.1, keyArea_split, append_assoc]

theorem getRange_posting :
    getRange page.logicalBytes
        (pageHeaderBytes + (before ++ slot :: after).length * entryBytes +
          (keyArea (before ++ slot :: after)).length + (postingArea before).length)
        (pageHeaderBytes + (before ++ slot :: after).length * entryBytes +
          (keyArea (before ++ slot :: after)).length + (postingArea before).length +
          slot.posting.length) = some slot.posting := by
  have hlen := h.length_eq
  refine getRange_of_drop (postingArea after) ?_ (by omega)
  rw [h.areas.2.2, postingArea_split]

end

end

end Written

end RadixDb.IndexPage
