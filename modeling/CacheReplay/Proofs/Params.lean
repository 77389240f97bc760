import Mathlib.Data.List.DropRight
import Mathlib.Data.List.Forall2
import CacheReplay.Params

set_option autoImplicit false

namespace CacheReplay

namespace Text

def core (s : List Char) : List Char := (s.rdropWhile isBlank).dropWhile isBlank

def Blank (s : List Char) : Prop := ∀ c ∈ s, isBlank c

theorem Blank.not_mem {s : List Char} (hs : Blank s) {c : Char} (hc : isBlank c = false) : c ∉ s :=
  fun h => by simp [hs c h] at hc

theorem trim_eq_core (s : List Char) : trim s = core s := by
  change (s.dropWhile isBlank).rdropWhile isBlank = core s
  unfold core
  induction s using List.reverseRecOn with
  | nil => rfl
  | append_singleton s c ih =>
    rw [List.dropWhile_append]
    by_cases hc : isBlank c
    · rw [List.rdropWhile_concat_pos isBlank s c hc, ← ih]
      cases hs : s.dropWhile isBlank with
      | nil => simp [hc]
      | cons a u => simpa using List.rdropWhile_concat_pos isBlank (a :: u) c hc
    · rw [List.rdropWhile_concat_neg isBlank s c hc, List.dropWhile_append]
      cases hs : s.dropWhile isBlank with
      | nil => simp [hc, List.rdropWhile_singleton]
      | cons a u => simpa using List.rdropWhile_concat_neg isBlank (a :: u) c hc

theorem core_append {r : List Char} (hr : Blank r) (s : List Char) : core (s ++ r) = core s := by
  rw [core, List.rdropWhile, List.reverse_append,
    List.dropWhile_append_of_pos fun c hc => hr c (List.mem_reverse.1 hc)]
  rfl

theorem append_core {l : List Char} (hl : Blank l) (s : List Char) : core (l ++ s) = core s := by
  rw [← trim_eq_core, ← trim_eq_core, trim, List.dropWhile_append_of_pos hl]
  rfl

theorem exists_core (s : List Char) : ∃ l r, s = l ++ core s ++ r ∧ Blank l ∧ Blank r := by
  refine ⟨(s.rdropWhile isBlank).takeWhile isBlank, s.rtakeWhile isBlank, ?_, ?_, ?_⟩
  · rw [core, List.takeWhile_append_dropWhile, List.rdropWhile_append_rtakeWhile]
  · exact fun c hc => List.mem_takeWhile_imp hc
  · exact fun c hc => List.mem_rtakeWhile_imp hc

theorem core_eq_nil_iff (s : List Char) : core s = [] ↔ Blank s := by
  constructor
  · intro h
    obtain ⟨l, r, hs, hl, hr⟩ := exists_core s
    rw [h, List.append_nil] at hs
    intro c hc
    rcases List.mem_append.1 (hs ▸ hc) with hc | hc
    · exact hl c hc
    · exact hr c hc
  · intro h
    simpa [core] using append_core h []

theorem core_map {f : Char → Char} (hf : ∀ c, isBlank (f c) = isBlank c) (s : List Char) :
    core (s.map f) = (core s).map f := by
  have h : isBlank ∘ f = isBlank := funext hf
  rw [core, core, List.rdropWhile, ← List.map_reverse, List.dropWhile_map, h, ← List.map_reverse,
    List.dropWhile_map, h]
  rfl

theorem splitAll_eq_splitOn (sep : Char) (s : List Char) : splitAll sep s = s.splitOn sep := by
  induction s with
  | nil => rfl
  | cons c s ih =>
    rw [splitAll, ih, List.splitOn_cons_eq_if_modifyHead]
    cases h : s.splitOn sep with
    | nil => exact absurd h (List.splitOn_ne_nil sep s)
    | cons part parts => by_cases hc : c = sep <;> simp [hc]

end Text

namespace Params

open Text (Blank core isBlank trim)

def hasText (part : List Char) : Bool := part.any fun c => !isBlank c

/-- The parts between commas that are not blank. -/
def parts (text : String) : List (List Char) := (text.toList.splitOn ',').filter hasText

def letter (c : Char) : Char := if c = '_' then '-' else c.toLower

/-- The text before the first equals sign, as keys are compared. -/
def keyOf (part : List Char) : String :=
  .ofList ((core (part.takeWhile (· ≠ '='))).map letter)

def valueOf (part : List Char) : String :=
  .ofList (core ((part.dropWhile (· ≠ '=')).drop 1))

/-- A part that gives a value to a key. -/
def Assigns (part : List Char) : Prop := '=' ∈ part ∧ keyOf part ≠ ""

def entryOf (part : List Char) : String × String := (keyOf part, valueOf part)

/-- A key in the letters that keys are compared by. -/
structure NormalKey (key : String) : Prop where
  ne_empty : key ≠ ""
  core_eq : core key.toList = key.toList
  letters : ∀ c ∈ key.toList, ¬ c.isUpper ∧ c ≠ '_'
  no_comma : ',' ∉ key.toList
  no_equals : '=' ∉ key.toList

structure NormalValue (value : String) : Prop where
  core_eq : core value.toList = value.toList
  no_comma : ',' ∉ value.toList

/-- Pairs that a text can give. -/
structure Normal (pairs : List (String × String)) : Prop where
  keys_nodup : (pairs.map Prod.fst).Nodup
  key : ∀ e ∈ pairs, NormalKey e.1
  value : ∀ e ∈ pairs, NormalValue e.2

def render (pairs : List (String × String)) : String :=
  ",".intercalate (pairs.map fun e => e.1 ++ "=" ++ e.2)

def Spells (c d : Char) : Prop := c = d ∨ c.toLower = d ∨ (c = '_' ∧ d = '-')

instance : DecidableRel Spells := fun _ _ => inferInstanceAs (Decidable (_ ∨ _ ∨ _))

/-- Items that write the pairs: keys in other letters, with blanks around keys, values and
items, and with blank items between. -/
inductive Writes : List String → List (String × String) → Prop
  | done : Writes [] []
  | blank {s : String} {items : List String} {pairs : List (String × String)}
      (hs : Blank s.toList) (rest : Writes items pairs) : Writes (s :: items) pairs
  | entry {key k v l m n r : String} {items : List String} {pairs : List (String × String)}
      (hk : List.Forall₂ Spells key.toList k.toList)
      (hl : Blank l.toList) (hm : Blank m.toList) (hn : Blank n.toList) (hr : Blank r.toList)
      (rest : Writes items pairs) :
      Writes ((l ++ key ++ m ++ "=" ++ n ++ v ++ r) :: items) ((k, v) :: pairs)

theorem writes_render (pairs : List (String × String)) :
    Writes (pairs.map fun e => e.1 ++ "=" ++ e.2) pairs := by
  induction pairs with
  | nil => exact .done
  | cons e pairs ih =>
    have no_blanks : Blank "".toList := by simp [Blank]
    simpa using Writes.entry (v := e.2) (List.forall₂_same.2 fun c _ => Or.inl rfl) no_blanks
      no_blanks no_blanks no_blanks ih

theorem exists_of_isUpper {c : Char} (hc : c.isUpper) :
    ∃ n ∈ List.range' 65 26, c = Char.ofNat n := by
  refine ⟨c.toNat, ?_, (Char.ofNat_toNat c).symm⟩
  have h : 'A'.val ≤ c.val ∧ c.val ≤ 'Z'.val := of_decide_eq_true hc
  rw [UInt32.le_iff_toNat_le, UInt32.le_iff_toNat_le] at h
  exact List.mem_range'_1.2 ⟨h.1, Nat.lt_succ_of_le h.2⟩

theorem toLower_of_not_isUpper {c : Char} (hc : ¬ c.isUpper) : c.toLower = c :=
  dif_neg fun h => hc (decide_eq_true h)

theorem isBlank_toLower (c : Char) : isBlank c.toLower = isBlank c := by
  by_cases hc : c.isUpper
  · obtain ⟨n, hn, rfl⟩ := exists_of_isUpper hc
    revert n
    decide
  · rw [toLower_of_not_isUpper hc]

theorem isBlank_letter (c : Char) : isBlank (letter c) = isBlank c := by
  unfold letter
  split
  · subst c; decide
  · exact isBlank_toLower c

theorem toLower_eq_iff (c : Char) {d : Char} (hd : ¬ d.isAlpha) : c.toLower = d ↔ c = d := by
  by_cases hc : c.isUpper
  · have h : c.toLower.isAlpha ∧ c.isAlpha := by
      obtain ⟨n, hn, rfl⟩ := exists_of_isUpper hc
      revert n
      decide
    constructor
    · rintro rfl
      exact absurd h.1 hd
    · rintro rfl
      exact absurd h.2 hd
  · rw [toLower_of_not_isUpper hc]

theorem normalizeKey_eq (key : List Char) : normalizeKey key = (core key).map letter := by
  simp only [normalizeKey, Text.dashed, Text.lower, List.map_map, Text.trim_eq_core]
  refine List.map_congr_left fun c _ => ?_
  have h : c.toLower = '_' ↔ c = '_' := toLower_eq_iff c (by decide)
  simp only [Function.comp_apply, letter, h]

theorem takeWhile_ne {a : List Char} (ha : '=' ∉ a) (b : List Char) :
    (a ++ '=' :: b).takeWhile (· ≠ '=') = a := by
  rw [List.takeWhile_append_of_pos fun c hc => by simpa using ne_of_mem_of_not_mem hc ha]
  simp

theorem dropWhile_ne {a : List Char} (ha : '=' ∉ a) (b : List Char) :
    (a ++ '=' :: b).dropWhile (· ≠ '=') = '=' :: b := by
  rw [List.dropWhile_append_of_pos fun c hc => by simpa using ne_of_mem_of_not_mem hc ha]
  simp

theorem keyOf_append {a : List Char} (ha : '=' ∉ a) (b : List Char) :
    keyOf (a ++ '=' :: b) = .ofList ((core a).map letter) := by
  rw [keyOf, takeWhile_ne ha]

theorem valueOf_append {a : List Char} (ha : '=' ∉ a) (b : List Char) :
    valueOf (a ++ '=' :: b) = .ofList (core b) := by
  rw [valueOf, dropWhile_ne ha]; rfl

theorem entryOf_pad {l r part : List Char} (hl : Blank l) (hr : Blank r) (h : '=' ∈ part) :
    entryOf (l ++ part ++ r) = entryOf part := by
  obtain ⟨a, b, rfl, ha⟩ := List.eq_append_cons_of_mem h
  have hla : '=' ∉ l ++ a := by simp [ha, hl.not_mem (show isBlank '=' = false by decide)]
  have e : l ++ (a ++ '=' :: b) ++ r = (l ++ a) ++ '=' :: (b ++ r) := by simp
  rw [entryOf, entryOf, e, keyOf_append hla, keyOf_append ha, valueOf_append hla,
    valueOf_append ha, Text.append_core hl, Text.core_append hr]

theorem readItem_eq_ok_iff (item : List Char) (e : String × String) :
    readItem item = .ok e ↔ Assigns item ∧ e = entryOf item := by
  by_cases h : '=' ∈ item
  · obtain ⟨a, b, rfl, ha⟩ := List.eq_append_cons_of_mem h
    have hk : (normalizeKey a).isEmpty = true ↔ keyOf (a ++ '=' :: b) = "" := by
      rw [keyOf_append ha, normalizeKey_eq, List.isEmpty_iff, String.ofList_eq_empty_iff]
    have he : (String.ofList (normalizeKey a), String.ofList (trim b)) =
        entryOf (a ++ '=' :: b) := by
      rw [entryOf, keyOf_append ha, valueOf_append ha, normalizeKey_eq, Text.trim_eq_core]
    simp only [readItem, Text.splitFirst_append ha, Assigns, h, true_and]
    by_cases hn : keyOf (a ++ '=' :: b) = ""
    · simp [hk.2 hn, hn]
    · simp [hn, mt hk.1 hn, he, eq_comm]
  · simp [readItem, Text.splitFirst_of_not_mem h, Assigns, h]

theorem assigns_core (part : List Char) : Assigns (core part) ↔ Assigns part := by
  obtain ⟨l, r, hs, hl, hr⟩ := Text.exists_core part
  have hmem : '=' ∈ core part ↔ '=' ∈ part := by
    conv_rhs => rw [hs]
    simp [hl.not_mem (show isBlank '=' = false by decide),
      hr.not_mem (show isBlank '=' = false by decide)]
  by_cases h : '=' ∈ core part
  · have e : keyOf part = keyOf (core part) := by
      conv_lhs => rw [hs]
      exact congrArg Prod.fst (entryOf_pad hl hr h)
    rw [Assigns, Assigns, hmem, e]
  · exact iff_of_false (fun a => h a.1) fun a => h (hmem.2 a.1)

theorem entryOf_core {part : List Char} (h : Assigns part) : entryOf (core part) = entryOf part := by
  obtain ⟨l, r, hs, hl, hr⟩ := Text.exists_core part
  have e := entryOf_pad hl hr ((assigns_core part).2 h).1
  rw [← hs] at e
  exact e.symm

theorem items_eq (text : String) : items text = (parts text).map core := by
  rw [items, parts, Text.splitAll_eq_splitOn, List.filter_map,
    show trim = core from funext Text.trim_eq_core]
  refine congrArg (List.map core) (List.filter_congr fun s _ => ?_)
  rw [Bool.eq_iff_iff]
  simp [Text.core_eq_nil_iff, Blank, hasText]

theorem readItems_cons_eq_ok_iff (earlier : List String) (part : List Char)
    (rest : List (List Char)) (pairs : List (String × String)) :
    readItems earlier (core part :: rest) = .ok pairs ↔
      Assigns part ∧ keyOf part ∉ earlier ∧ ∃ later,
        readItems (keyOf part :: earlier) rest = .ok later ∧ pairs = entryOf part :: later := by
  rw [readItems]
  cases hp : readItem (core part) with
  | error x =>
    have ha : ¬ Assigns part := fun ha => by
      simp [(readItem_eq_ok_iff _ _).2 ⟨(assigns_core part).2 ha, rfl⟩] at hp
    simp [bind, Except.bind, ha]
  | ok e =>
    obtain ⟨ha, rfl⟩ := (readItem_eq_ok_iff _ _).1 hp
    rw [assigns_core] at ha
    rw [entryOf_core ha]
    by_cases hk : keyOf part ∈ earlier
    · simp [bind, Except.bind, entryOf, hk, throw, throwThe, MonadExceptOf.throw]
    · cases hr : readItems (keyOf part :: earlier) rest <;>
        simp [bind, Except.bind, entryOf, hk, hr, pure, Except.pure, ha, eq_comm]

/-- The keys of later items are told apart from each other and from the earlier ones. -/
theorem readItems_eq_ok_iff (earlier : List String) (raw : List (List Char))
    (pairs : List (String × String)) :
    readItems earlier (raw.map core) = .ok pairs ↔
      (∀ part ∈ raw, Assigns part) ∧ (∀ part ∈ raw, keyOf part ∉ earlier) ∧
        (raw.map keyOf).Nodup ∧ pairs = raw.map entryOf := by
  induction raw generalizing earlier pairs with
  | nil => simp [readItems, eq_comm]
  | cons part raw ih =>
    rw [List.map_cons, readItems_cons_eq_ok_iff, List.forall_mem_cons, List.forall_mem_cons]
    simp only [ih, List.mem_cons, not_or, List.map_cons, List.nodup_cons, List.mem_map, not_exists,
      not_and]
    constructor
    · rintro ⟨ha, hk, later, ⟨hl, hf, hn, rfl⟩, rfl⟩
      exact ⟨⟨ha, hl⟩, ⟨hk, fun q hq => (hf q hq).2⟩, ⟨fun q hq => (hf q hq).1, hn⟩, rfl⟩
    · rintro ⟨⟨ha, hl⟩, ⟨hk, hf⟩, ⟨hd, hn⟩, rfl⟩
      exact ⟨ha, hk, _, ⟨hl, fun q hq => ⟨hd q hq, hf q hq⟩, hn, rfl⟩, rfl⟩

theorem parse_eq_ok_iff (text : String) (p : Params) :
    parse text = .ok p ↔ (∀ part ∈ parts text, Assigns part) ∧
      ((parts text).map keyOf).Nodup ∧ p.pairs = (parts text).map entryOf := by
  have h := readItems_eq_ok_iff [] (parts text) p.pairs
  simp only [List.not_mem_nil, not_false_eq_true, implies_true, true_and] at h
  rw [← h, ← items_eq, parse]
  cases readItems [] (items text) with
  | error x => simp [bind, Except.bind]
  | ok pairs => cases p; simp [bind, Except.bind, pure, Except.pure]

example : parse "n-merge=2, N_Merge =3" = .error (.duplicateKey "n-merge") := by rfl

theorem letter_of_spells {c d : Char} (h : Spells c d) (hd : ¬ d.isUpper ∧ d ≠ '_') :
    letter c = d := by
  unfold letter
  rcases h with rfl | rfl | ⟨rfl, rfl⟩
  · rw [if_neg hd.2, toLower_of_not_isUpper hd.1]
  · rw [if_neg fun h => hd.2 (by subst h; decide)]
  · rw [if_pos rfl]

theorem map_letter_of_spells {key k : List Char} (h : List.Forall₂ Spells key k)
    (hk : ∀ c ∈ k, ¬ c.isUpper ∧ c ≠ '_') : key.map letter = k := by
  induction h with
  | nil => rfl
  | cons hc _ ih =>
    rw [List.forall_mem_cons] at hk
    rw [List.map_cons, letter_of_spells hc hk.1, ih hk.2]

/-- Only letters, dashes and underscores have a second spelling. -/
theorem not_mem_of_spells {key k : List Char} (h : List.Forall₂ Spells key k) {sign : Char}
    (ha : ¬ sign.isAlpha) (hu : sign ≠ '_') (hk : sign ∉ k) : sign ∉ key := by
  induction h with
  | nil => exact hk
  | cons hc _ ih =>
    rw [List.mem_cons, not_or] at hk ⊢
    refine ⟨?_, ih hk.2⟩
    rintro rfl
    rcases hc with rfl | rfl | ⟨rfl, -⟩
    · exact hk.1 rfl
    · exact hk.1 ((toLower_eq_iff _ ha).2 rfl).symm
    · exact hu rfl

section Entry

variable {key k v l m n r : String} (hk : List.Forall₂ Spells key.toList k.toList)
  (hl : Blank l.toList) (hm : Blank m.toList) (hn : Blank n.toList) (hr : Blank r.toList)

include hk hl hm

theorem equals_not_mem (nk : NormalKey k) : '=' ∉ l.toList ++ key.toList ++ m.toList := by
  have h : isBlank '=' = false := by decide
  simp [hl.not_mem h, hm.not_mem h, not_mem_of_spells hk (by decide) (by decide) nk.no_equals]

include hn hr

theorem comma_not_mem (nk : NormalKey k) (nv : NormalValue v) :
    ',' ∉ (l ++ key ++ m ++ "=" ++ n ++ v ++ r).toList := by
  have h : isBlank ',' = false := by decide
  simp [hl.not_mem h, hm.not_mem h, hn.not_mem h, hr.not_mem h, nv.no_comma,
    not_mem_of_spells hk (by decide) (by decide) nk.no_comma]

theorem entryOf_written (nk : NormalKey k) (nv : NormalValue v) :
    entryOf (l ++ key ++ m ++ "=" ++ n ++ v ++ r).toList = (k, v) := by
  have e : (l ++ key ++ m ++ "=" ++ n ++ v ++ r).toList =
      (l.toList ++ key.toList ++ m.toList) ++ '=' :: (n.toList ++ v.toList ++ r.toList) := by simp
  have hkey : (core (l.toList ++ key.toList ++ m.toList)).map letter = k.toList := by
    rw [Text.core_append hm, Text.append_core hl, ← Text.core_map isBlank_letter,
      map_letter_of_spells hk nk.letters, nk.core_eq]
  have hvalue : core (n.toList ++ v.toList ++ r.toList) = v.toList := by
    rw [Text.core_append hr, Text.append_core hn, nv.core_eq]
  have h := equals_not_mem hk hl hm nk
  rw [entryOf, e, keyOf_append h, valueOf_append h, hkey, hvalue, String.ofList_toList,
    String.ofList_toList]

end Entry

theorem Writes.no_comma {items : List String} {pairs : List (String × String)}
    (w : Writes items pairs) (hk : ∀ e ∈ pairs, NormalKey e.1) (hv : ∀ e ∈ pairs, NormalValue e.2) :
    ∀ item ∈ items, ',' ∉ item.toList := by
  induction w with
  | done => simp
  | blank hs _ ih =>
    exact List.forall_mem_cons.2 ⟨hs.not_mem (by decide), ih hk hv⟩
  | entry hspell hl hm hn hr _ ih =>
    rw [List.forall_mem_cons] at hk hv
    exact List.forall_mem_cons.2 ⟨comma_not_mem hspell hl hm hn hr hk.1 hv.1, ih hk.2 hv.2⟩

theorem Writes.map_entryOf {items : List String} {pairs : List (String × String)}
    (w : Writes items pairs) (hk : ∀ e ∈ pairs, NormalKey e.1) (hv : ∀ e ∈ pairs, NormalValue e.2) :
    (∀ part ∈ (items.map String.toList).filter hasText, '=' ∈ part) ∧
      ((items.map String.toList).filter hasText).map entryOf = pairs := by
  induction w with
  | done => simp
  | @blank s items _ hs _ ih =>
    have h : hasText s.toList = false := by simpa [hasText, Blank] using hs
    rw [List.map_cons, List.filter_cons_of_neg (by simp [h])]
    exact ih hk hv
  | @entry key k v l m n r items _ hspell hl hm hn hr _ ih =>
    rw [List.forall_mem_cons] at hk hv
    have he : '=' ∈ (l ++ key ++ m ++ "=" ++ n ++ v ++ r).toList := by simp
    have h : hasText (l ++ key ++ m ++ "=" ++ n ++ v ++ r).toList :=
      List.any_eq_true.2 ⟨'=', he, by decide⟩
    rw [List.map_cons, List.filter_cons_of_pos h, List.map_cons, List.forall_mem_cons,
      entryOf_written hspell hl hm hn hr hk.1 hv.1, (ih hk.2 hv.2).2]
    exact ⟨⟨he, (ih hk.2 hv.2).1⟩, rfl⟩

theorem parts_intercalate {items : List String} (h : ∀ item ∈ items, ',' ∉ item.toList) :
    parts (",".intercalate items) = (items.map String.toList).filter hasText := by
  cases items with
  | nil => decide
  | cons item items =>
    rw [parts, String.toList_intercalate]
    exact congrArg (List.filter hasText) (List.splitOn_intercalate ',' (by simpa using h) (by simp))

theorem parse_of_writes {items : List String} {p : Params} (w : Writes items p.pairs)
    (np : Normal p.pairs) : parse (",".intercalate items) = .ok p := by
  obtain ⟨he, hp⟩ := w.map_entryOf np.key np.value
  rw [← parts_intercalate (w.no_comma np.key np.value)] at he hp
  have hkeys : (parts (",".intercalate items)).map keyOf = p.pairs.map Prod.fst := by
    rw [← hp, List.map_map]; rfl
  refine (parse_eq_ok_iff _ p).2 ⟨fun part h => ⟨he part h, ?_⟩, hkeys ▸ np.keys_nodup, hp.symm⟩
  have hmem : entryOf part ∈ p.pairs := hp ▸ List.mem_map_of_mem h
  exact (np.key _ hmem).ne_empty

/-- A text is accepted exactly if each part that is not blank gives a value to a key of its own,
and it says these keys and values in the order of its parts. Pairs that a text can give are
read back from their rendering and from all that writes them otherwise. -/
theorem parse_exactly (text : String) (p : Params) :
    (parse text = .ok p ↔ (∀ part ∈ parts text, '=' ∈ part ∧ keyOf part ≠ "") ∧
      ((parts text).map keyOf).Nodup ∧
      p.pairs = (parts text).map fun part => (keyOf part, valueOf part)) ∧
    (Normal p.pairs → parse (render p.pairs) = .ok p ∧
      ∀ items, Writes items p.pairs → parse (",".intercalate items) = .ok p) := by
  refine ⟨parse_eq_ok_iff text p, fun np => ⟨?_, fun items w => parse_of_writes w np⟩⟩
  exact parse_of_writes (writes_render p.pairs) np

theorem writes_rank_intvl : Writes [" Rank_Intvl=0.05 ", "type=learned", ""]
    [("rank-intvl", "0.05"), ("type", "learned")] := by
  have none : Blank "".toList := by simp [Blank]
  have one : Blank " ".toList := by simp [Blank]; decide
  have key : List.Forall₂ Spells "Rank_Intvl".toList "rank-intvl".toList := by
    decide
  refine @Writes.entry "Rank_Intvl" "rank-intvl" "0.05" " " "" "" " " _ _ key one none none one ?_
  refine @Writes.entry "type" "type" "learned" "" "" "" "" _ _ ?_ none none none none ?_
  · exact List.forall₂_same.2 fun c _ => Or.inl rfl
  · exact .blank none .done

theorem parse_exactly_rank_intvl :
    Normal [("rank-intvl", "0.05"), ("type", "learned")] ∧
      parse " Rank_Intvl=0.05 ,type=learned," =
        .ok ⟨[("rank-intvl", "0.05"), ("type", "learned")]⟩ := by
  have np : Normal [("rank-intvl", "0.05"), ("type", "learned")] := by
    have rank : NormalKey "rank-intvl" := ⟨by decide, by decide, by simp, by decide, by decide⟩
    have type : NormalKey "type" := ⟨by decide, by decide, by simp, by decide, by decide⟩
    have number : NormalValue "0.05" := ⟨by decide, by decide⟩
    have learned : NormalValue "learned" := ⟨by decide, by decide⟩
    exact ⟨by decide, by simp [rank, type], by simp [number, learned]⟩
  have text : ",".intercalate [" Rank_Intvl=0.05 ", "type=learned", ""] =
      " Rank_Intvl=0.05 ,type=learned," := by decide
  have read := ((parse_exactly "" ⟨_⟩).2 np).2 _ writes_rank_intvl
  rw [text] at read
  exact ⟨np, read⟩

end Params

end CacheReplay
