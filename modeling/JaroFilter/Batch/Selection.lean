import JaroFilter.Lib.Buffer
import JaroFilter.Products.Cache

/-!
# The selection of a batch (`jaro-filter.c:17-25`, `111-155`)

A path list arrives in whatever pieces `read` returns. The items it frames are
kept in order, and nothing of the batch runs unless the whole list is framed.
-/

namespace JaroFilter

open Lib

/-! ### `struct selected` -/

/-- The fields of `struct stat` that the batch reads. -/
structure Stat where
  dev : ℕ := 0
  ino : ℕ := 0
  size : ℤ := 0
  mtim : ℤ × ℤ := (0, 0)
  ctim : ℤ × ℤ := (0, 0)
  /-- `S_ISREG(st_mode)`. -/
  regular : Bool := false
  deriving DecidableEq, Repr

/-- `struct selected`; `first` is the index of the item it points to. -/
structure Selected where
  path : Bytes
  identity : Stat := {}
  snapshotted : Bool := false
  attempted : Bool := false
  error : Option Bytes := none
  first : Option ℕ := none
  deriving DecidableEq, Repr

/-- `struct selection`; `count` is the length of `items`. -/
structure Selection where
  items : List Selected := []
  bytes : ℕ := 0
  deriving DecidableEq, Repr

/-- `PATH_COUNT_MAX` (`jaro-filter.c:14`). -/
def pathCountMax : ℕ := 100000

/-- `select_path` (`jaro-filter.c:111-130`). -/
def selectPath (s : Selection) (path : Bytes) (identity : Option Stat) : Except ℕ Selection :=
  if path.length = 0 ∨ s.items.length = pathCountMax ∨ inputMax - s.bytes ≤ path.length then .error 2
  else
    let item : Selected :=
      match identity with
      | none => { path }
      | some st => { path, identity := st, snapshotted := true }
    .ok ⟨s.items ++ [item], s.bytes + (path.length + 1)⟩

/-! ### `list_paths` -/

/-- What one `read` into the buffer of 4096 bytes put there. -/
structure Chunk where
  data : Bytes
  nonempty : data ≠ []
  fits : data.length ≤ 4096

/-- The result of one `read` before the end of the list. -/
inductive Got where
  | data (c : Chunk)
  /-- `EINTR`. -/
  | again
  | failed

/-- The input of one call: what `open`, the reads up to the end of the file and
`close` return. -/
structure ListInput where
  opened : Bool := true
  reads : List Got
  closed : Bool := true

/-- The body of the byte loop (`jaro-filter.c:144-149`). -/
def listByte (item : Bytes) (s : Selection) (c : Byte) : Except ℕ (Bytes × Selection) :=
  match bytesAdd inputMax item [c] with
  | none => .error 3
  | some item =>
    if c = 0 then (selectPath s (cString item) none).map fun s => ([], s) else .ok (item, s)

/-- The byte loop over one buffer (`jaro-filter.c:143-150`). -/
def listBytes : Bytes → Bytes → Selection → Except ℕ (Bytes × Selection)
  | [], item, s => .ok (item, s)
  | c :: cs, item, s => do
    let x ← listByte item s c
    listBytes cs x.1 x.2

/-- The read loop (`jaro-filter.c:138-151`). -/
def listLoop : List Got → ℕ → Bytes → Selection → Except ℕ Selection
  | [], _, item, s => if item.length = 0 then .ok s else .error 2
  | .again :: reads, total, item, s => listLoop reads total item s
  | .failed :: _, _, _, _ => .error 3
  | .data c :: reads, total, item, s =>
    if inputMax - total < c.data.length then .error 2
    else
      match listBytes c.data item s with
      | .error rc => .error rc
      | .ok x => listLoop reads (total + c.data.length) x.1 x.2

/-- `list_paths` (`jaro-filter.c:132-155`). -/
def listPaths (input : ListInput) : Except ℕ Selection :=
  if input.opened = false then .error 3
  else
    match listLoop input.reads 0 [] {} with
    | .error rc => .error rc
    | .ok s => if input.closed = false then .error 3 else .ok s

/-- `main` on `--files0-from` (`jaro-filter.c:580-582`): `apply` is all that
follows the selection, the pins, the snapshot, the lock and the moves. -/
def mainList {World : Type} (apply : Selection → World → ℕ × World) (input : ListInput) (w : World) :
    ℕ × World :=
  match listPaths input with
  | .error rc => (rc, w)
  | .ok s => apply s w

/-! ### Framing -/

/-- The items of a path list, in order. -/
structure IsPathList (stream : Bytes) (items : List Bytes) : Prop where
  frames : stream = framed items
  nonempty : ∀ x ∈ items, x ≠ []
  nul : ∀ x ∈ items, 0 ∉ x
  count : items.length ≤ pathCountMax
  size : stream.length ≤ inputMax

/-- The bytes the reads deliver. -/
def Got.bytes : Got → Bytes
  | .data c => c.data
  | .again => []
  | .failed => []

def ListInput.stream (input : ListInput) : Bytes := input.reads.flatMap Got.bytes

/-- Opening, reading and closing succeed. -/
structure ListInput.Succeeds (input : ListInput) : Prop where
  opened : input.opened = true
  closed : input.closed = true
  reads : .failed ∉ input.reads

/-- The selection of the items. -/
def selectionOf (items : List Bytes) : Selection :=
  ⟨items.map fun x => { path := x }, (framed items).length⟩

/-! ### Every way of reading a list -/

/-- What the loops hold behind the bytes `p`: the items done and the one begun. -/
structure Framing (p : Bytes) (done : List Bytes) (item : Bytes) : Prop where
  bytes : p = framed done ++ item
  nonempty : ∀ x ∈ done, x ≠ []
  nul : ∀ x ∈ done, 0 ∉ x
  item_nul : 0 ∉ item
  count : done.length ≤ pathCountMax

/-- No list begins with the bytes `p`. -/
def Refused (p : Bytes) : Prop := ∀ rest items, ¬ IsPathList (p ++ rest) items

theorem Framing.length {p : Bytes} {done : List Bytes} {item : Bytes} (h : Framing p done item) :
    (framed done).length + item.length = p.length := by
  rw [h.bytes, List.length_append]

/-- A list that goes on with a terminator has the begun item next. -/
theorem Framing.next {p rest : Bytes} {done items : List Bytes} {item : Bytes} (h : Framing p done item)
    (hl : IsPathList (p ++ 0 :: rest) items) : ∃ more, items = done ++ item :: more := by
  have hframes := hl.frames
  rw [h.bytes, List.append_assoc] at hframes
  obtain ⟨more, hmore, -⟩ := framed_split h.nul hl.nul h.item_nul hframes
  exact ⟨more, hmore⟩

theorem selectPath_next {done : List Bytes} {item : Bytes} (hitem : item ≠ [])
    (hcount : done.length < pathCountMax) (hsize : (framed done).length + item.length < inputMax) :
    selectPath (selectionOf done) item none = .ok (selectionOf (done ++ [item])) := by
  have hn : item.length ≠ 0 := by simpa using hitem
  have hroom : ¬ inputMax - (framed done).length ≤ item.length := by omega
  simp only [selectPath, selectionOf, List.length_map, hn, hroom, hcount.ne, or_self, if_false]
  simp

/-- Behind the bytes `q` the loops stand at a framing, or no list begins with `q`. -/
def Carried (q : Bytes) (r : Except ℕ (Bytes × Selection)) : Prop :=
  (∃ done item, Framing q done item ∧ r = .ok (item, selectionOf done)) ∨ (Refused q ∧ r = .error 2)

theorem cString_terminated {t : Bytes} (h : 0 ∉ t) : cString (t ++ [0]) = t := by
  rw [cString, List.takeWhile_append_of_pos fun c hc => by simpa using fun he : c = 0 => h (he ▸ hc)]
  simp

/-- One byte either carries the framing on or shows that there is no list. -/
theorem listByte_spec {p : Bytes} {done : List Bytes} {item : Bytes} (h : Framing p done item)
    (hp : p.length < inputMax) (c : Byte) :
    Carried (p ++ [c]) (listByte item (selectionOf done) c) := by
  have hlen := h.length
  have hadd : bytesAdd inputMax item [c] = some (item ++ [c]) :=
    if_pos ⟨by omega, by rw [List.length_singleton]; omega⟩
  rw [listByte, hadd]
  simp only
  by_cases hc : c = 0
  · subst hc
    rw [if_pos rfl, cString_terminated h.item_nul]
    by_cases hitem : item = []
    · right
      refine ⟨fun rest items hl => ?_, by rw [selectPath, if_pos (by simp [hitem])]; rfl⟩
      rw [List.append_assoc] at hl
      obtain ⟨more, rfl⟩ := h.next hl
      exact hl.nonempty item (by simp) hitem
    · by_cases hcount : done.length = pathCountMax
      · right
        refine ⟨fun rest items hl => ?_, ?_⟩
        · rw [List.append_assoc] at hl
          obtain ⟨more, rfl⟩ := h.next hl
          have hle := hl.count
          rw [List.length_append, List.length_cons] at hle
          omega
        · have hfull : (selectionOf done).items.length = pathCountMax := by
            rw [← hcount, selectionOf, List.length_map]
          rw [selectPath, if_pos (.inr (.inl hfull))]
          rfl
      · left
        refine ⟨done ++ [item], [], ⟨?_, ?_, ?_, List.not_mem_nil, ?_⟩, ?_⟩
        · rw [h.bytes]
          simp
        · simpa [or_imp, forall_and] using ⟨h.nonempty, hitem⟩
        · simpa [or_imp, forall_and] using ⟨h.nul, h.item_nul⟩
        · have hle := h.count
          rw [List.length_append, List.length_singleton]
          omega
        · rw [selectPath_next hitem (by have := h.count; omega) (by omega)]
          rfl
  · left
    refine ⟨done, item ++ [c], ⟨?_, h.nonempty, h.nul, ?_, h.count⟩, if_neg hc⟩
    · rw [h.bytes, List.append_assoc]
    · simpa [h.item_nul] using fun he => hc he.symm

theorem Refused.append {p : Bytes} (h : Refused p) (q : Bytes) : Refused (p ++ q) := by
  intro rest items hl
  rw [List.append_assoc] at hl
  exact h _ _ hl

theorem listBytes_spec (cs : Bytes) {p : Bytes} {done : List Bytes} {item : Bytes} (h : Framing p done item)
    (hp : p.length + cs.length ≤ inputMax) :
    Carried (p ++ cs) (listBytes cs item (selectionOf done)) := by
  induction cs generalizing p done item with
  | nil => exact .inl ⟨done, item, by rwa [List.append_nil], rfl⟩
  | cons c cs ih =>
    rw [List.length_cons] at hp
    rw [← List.singleton_append, ← List.append_assoc]
    obtain ⟨done', item', hstep, heq⟩ | ⟨hno, heq⟩ := listByte_spec h (by omega) c
    · have hrest := ih hstep (by rw [List.length_append, List.length_singleton]; omega)
      rwa [List.singleton_append, listBytes, heq]
    · refine .inr ⟨hno.append cs, ?_⟩
      rw [List.singleton_append, listBytes, heq]
      rfl

/-- The read loop from a framing on, whatever the remaining reads hold. -/
theorem listLoop_spec {reads : List Got} (hreads : .failed ∉ reads) {p : Bytes} {done : List Bytes}
    {item : Bytes} (h : Framing p done item) (hp : p.length ≤ inputMax) :
    (∃ items, IsPathList (p ++ reads.flatMap Got.bytes) items ∧
      listLoop reads p.length item (selectionOf done) = .ok (selectionOf items)) ∨
    ((∀ items, ¬ IsPathList (p ++ reads.flatMap Got.bytes) items) ∧
      listLoop reads p.length item (selectionOf done) = .error 2) := by
  induction reads generalizing p done item with
  | nil =>
    rw [List.flatMap_nil, List.append_nil, listLoop]
    by_cases hitem : item = []
    · refine .inl ⟨done, ⟨?_, h.nonempty, h.nul, h.count, hp⟩, if_pos (by rw [hitem]; rfl)⟩
      rw [h.bytes, hitem, List.append_nil]
    · refine .inr ⟨fun items hl => hitem ?_, if_neg (by simpa using hitem)⟩
      exact framed_tail h.nul hl.nul h.item_nul (h.bytes ▸ hl.frames)
  | cons got reads ih =>
    rw [List.mem_cons, not_or] at hreads
    rw [List.flatMap_cons, ← List.append_assoc]
    cases got with
    | failed => exact absurd rfl hreads.1
    | again =>
      have hrest := ih hreads.2 h hp
      rwa [Got.bytes, List.append_nil, listLoop]
    | data c =>
      rw [listLoop, Got.bytes]
      by_cases hroom : inputMax - p.length < c.data.length
      · rw [if_pos hroom]
        refine .inr ⟨fun items hl => ?_, rfl⟩
        have hsize := hl.size
        rw [List.length_append, List.length_append] at hsize
        omega
      · rw [if_neg hroom, ← List.length_append]
        obtain ⟨done', item', hstep, heq⟩ | ⟨hno, heq⟩ := listBytes_spec c.data h (by omega)
        · rw [heq]
          exact ih hreads.2 hstep (by rw [List.length_append]; omega)
        · rw [heq]
          exact .inr ⟨hno _, rfl⟩

/-- A path list is read as its items in order, whatever pieces it arrives in;
any other stream ends the run with status 2 and nothing of the batch is run. -/
theorem path_list_exact (input : ListInput) (h : input.Succeeds) :
    ((∃ s, listPaths input = .ok s) ↔ ∃ items, IsPathList input.stream items) ∧
    (∀ items, IsPathList input.stream items → listPaths input = .ok (selectionOf items)) ∧
    ((¬ ∃ items, IsPathList input.stream items) → listPaths input = .error 2 ∧
      ∀ {World : Type} (apply : Selection → World → ℕ × World) (w : World),
        mainList apply input w = (2, w)) := by
  have hstart : Framing [] [] [] := ⟨rfl, by simp, by simp, by simp, Nat.zero_le _⟩
  have heq : listPaths input = listLoop input.reads 0 [] {} := by
    rw [listPaths, if_neg (by simp [h.opened])]
    cases listLoop input.reads 0 [] {} with
    | error rc => rfl
    | ok s => exact if_neg (by simp [h.closed])
  obtain ⟨items, hl, hok⟩ | ⟨hno, herr⟩ := listLoop_spec h.reads hstart (Nat.zero_le _)
  · have hlist : listPaths input = .ok (selectionOf items) := heq.trans hok
    refine ⟨⟨fun _ => ⟨items, hl⟩, fun _ => ⟨_, hlist⟩⟩, fun items' hl' => ?_, fun hno => absurd ⟨items, hl⟩ hno⟩
    have hsame : framed items = framed items' := hl.frames.symm.trans hl'.frames
    rw [← framed_injective hl.nul hl'.nul hsame, hlist]
  · have hlist : listPaths input = .error 2 := heq.trans herr
    refine ⟨⟨fun ⟨s, hs⟩ => ?_, fun ⟨items, hl⟩ => absurd hl (hno items)⟩,
      fun items hl => absurd hl (hno items), fun _ => ⟨hlist, fun apply w => ?_⟩⟩
    · rw [hlist] at hs
      cases hs
    · rw [mainList, hlist]

/-- Two items in three reads, one of them interrupted and one split. -/
def sampleList : ListInput :=
  { reads := [.data ⟨cstr "a", by decide, by decide⟩, .again, .data ⟨[0, 255, 0], by decide, by decide⟩] }

theorem path_list_exact_sample : listPaths sampleList = .ok (selectionOf [cstr "a", [255]]) :=
  (path_list_exact sampleList ⟨rfl, rfl, by simp [sampleList]⟩).2.1 _
    ⟨by decide, by decide, by decide, by decide, by decide⟩

end JaroFilter
