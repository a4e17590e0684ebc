/-! A file tree: which entry stands at which location, and the directory that relative paths start
from. A location lists names from the innermost outwards, so a directory's location is the tail of
its entries' and the root's is `[]`. Every entry's parent is a directory, by the type. -/

namespace Sidecar

abbrev Location := List String

/-- Bytes are compared by their own equality, whatever else stands in a project. -/
local instance bytesDecidableEq : DecidableEq ByteArray :=
  ByteArray.instDecidableEq

inductive Entry where
  | directory
  | file (content : ByteArray)
  | link (target : String)
  deriving DecidableEq

namespace Entry

def isDirectory : Entry → Bool
  | .directory => true
  | _ => false

end Entry

/-- Bytes that a single name may have. -/
def FileTree.maxNameBytes : Nat := 255

/-- What an entry may be called: `.` and `..` have a meaning of their own in paths. -/
def IsEntryName (name : String) : Prop :=
  name ≠ "" ∧ name ≠ "." ∧ name ≠ ".." ∧ '/' ∉ name.toList ∧ '\x00' ∉ name.toList ∧
    name.utf8ByteSize ≤ FileTree.maxNameBytes

instance (name : String) : Decidable (IsEntryName name) :=
  inferInstanceAs (Decidable (_ ∧ _))

structure FileTree where
  entries : List (Location × Entry)
  workingDirectory : Location
  parent_isDirectory : ∀ name above, (entries.lookup (name :: above)).isSome = true → above ≠ [] →
    entries.lookup above = some .directory
  isEntryName : ∀ name above, (entries.lookup (name :: above)).isSome = true → IsEntryName name

namespace FileTree

/-- The entry at a location, links not followed. -/
def get? (t : FileTree) : Location → Option Entry
  | [] => some .directory
  | name :: above => t.entries.lookup (name :: above)

theorem get?_parent {t : FileTree} {name : String} {above : Location} {e : Entry}
    (h : t.get? (name :: above) = some e) : t.get? above = some .directory := by
  have hs : (t.entries.lookup (name :: above)).isSome = true := by
    simp [show t.entries.lookup (name :: above) = some e from h]
  cases above with
  | nil => rfl
  | cons => exact t.parent_isDirectory _ _ hs (by simp)

theorem isEntryName_of_get? {t : FileTree} {name : String} {above : Location} {e : Entry}
    (h : t.get? (name :: above) = some e) : IsEntryName name :=
  t.isEntryName name above (by simp [show t.entries.lookup (name :: above) = some e from h])

/-- Nothing but the root. -/
def empty : FileTree where
  entries := []
  workingDirectory := []
  parent_isDirectory := by simp
  isEntryName := by simp

/-- A location that an entry can be put at: its parent is a directory, it has a name, and it does
not take the place of a directory. -/
def Accepts (t : FileTree) : Location → Prop
  | [] => False
  | name :: above =>
    t.get? above = some .directory ∧ IsEntryName name ∧ t.get? (name :: above) ≠ some .directory

instance (t : FileTree) (loc : Location) : Decidable (t.Accepts loc) :=
  match loc with
  | [] => inferInstanceAs (Decidable False)
  | _ :: _ => inferInstanceAs (Decidable (_ ∧ _))

private theorem lookup_cons_ne {loc other : Location} {e : Entry}
    {es : List (Location × Entry)} (h : other ≠ loc) :
    ((loc, e) :: es).lookup other = es.lookup other := by
  have hb : (other == loc) = false := beq_eq_false_iff_ne.mpr h
  simp [List.lookup_cons, hb]

def put (t : FileTree) (loc : Location) (e : Entry) (h : t.Accepts loc) : FileTree where
  entries := (loc, e) :: t.entries
  workingDirectory := t.workingDirectory
  parent_isDirectory := by
    intro name above hs hne
    have hbelow : ∀ l, l ≠ [] → t.entries.lookup l = some .directory →
        ((loc, e) :: t.entries).lookup l = some .directory := by
      intro l hl hd
      by_cases hloc : l = loc
      · subst hloc
        cases l with
        | nil => contradiction
        | cons n a => exact absurd hd h.2.2
      · rw [lookup_cons_ne hloc, hd]
    by_cases hloc : name :: above = loc
    · subst hloc
      apply hbelow _ hne
      have := h.1
      cases above with
      | nil => contradiction
      | cons => exact this
    · rw [lookup_cons_ne hloc] at hs
      exact hbelow _ hne (t.parent_isDirectory _ _ hs hne)
  isEntryName := by
    intro name above hs
    by_cases hloc : name :: above = loc
    · subst hloc; exact h.2.1
    · rw [lookup_cons_ne hloc] at hs
      exact t.isEntryName _ _ hs

theorem get?_put_self (t : FileTree) (loc : Location) (e : Entry) (h : t.Accepts loc) :
    (t.put loc e h).get? loc = some e := by
  cases loc with
  | nil => exact h.elim
  | cons => simp [get?, put]

theorem get?_put_of_ne {t : FileTree} {loc other : Location} {e : Entry} (h : t.Accepts loc)
    (hne : other ≠ loc) : (t.put loc e h).get? other = t.get? other := by
  cases other with
  | nil => rfl
  | cons => simp only [get?, put, lookup_cons_ne hne]

private theorem lookup_filter (p : Location → Bool) {loc : Location}
    (es : List (Location × Entry)) :
    (es.filter fun x => p x.1).lookup loc = if p loc then es.lookup loc else none := by
  induction es with
  | nil => simp
  | cons x es ih =>
    obtain ⟨l, e⟩ := x
    simp only [List.filter_cons]
    by_cases hl : loc = l
    · subst hl
      by_cases hp : p loc = true
      · simp [hp]
      · simp [hp, ih]
    · split
      · simp [lookup_cons_ne hl, ih]
      · simp [lookup_cons_ne hl, ih]

/-- Without the entry at a location and all that is below it. -/
def remove (t : FileTree) (loc : Location) : FileTree where
  entries := t.entries.filter fun x => !loc.isSuffixOf x.1
  workingDirectory := t.workingDirectory
  parent_isDirectory := by
    intro name above hs hne
    rw [lookup_filter fun l => !loc.isSuffixOf l] at hs ⊢
    split at hs
    next hk =>
      have hka : (!loc.isSuffixOf above) = true := by
        simp only [Bool.not_eq_true', Bool.eq_false_iff, ne_eq, List.isSuffixOf_iff_suffix] at hk ⊢
        exact fun hsuf => hk (hsuf.trans (List.suffix_cons ..))
      rw [if_pos hka]
      exact t.parent_isDirectory _ _ hs hne
    next => simp at hs
  isEntryName := by
    intro name above hs
    rw [lookup_filter fun l => !loc.isSuffixOf l] at hs
    split at hs
    · exact t.isEntryName _ _ hs
    · simp at hs

/-- The name of a location that lies right below another. -/
def nameIn (above : Location) : Location → Option String
  | [] => none
  | name :: rest => if rest = above then some name else none

/-- The names in a directory, in the order of their bytes. -/
def namesIn (t : FileTree) (loc : Location) : List String :=
  (t.entries.filterMap fun x => nameIn loc x.1).eraseDups.mergeSort

theorem mem_namesIn {t : FileTree} {loc : Location} {name : String} :
    name ∈ t.namesIn loc ↔ (t.get? (name :: loc)).isSome = true := by
  simp only [namesIn, List.mem_mergeSort, List.mem_eraseDups, get?]
  generalize t.entries = es
  induction es with
  | nil => simp
  | cons x es ih =>
    obtain ⟨l, e⟩ := x
    by_cases hl : l = name :: loc
    · subst hl; simp [nameIn]
    · rw [lookup_cons_ne (Ne.symm hl), ← ih]
      have hn : nameIn loc l ≠ some name := by
        cases l with
        | nil => simp [nameIn]
        | cons n a =>
          simp only [nameIn]
          split
          · rintro ⟨⟩; simp_all
          · simp
      rw [List.filterMap_cons]
      split
      · rfl
      next n hl' =>
        have hne : name ≠ n := fun he => hn (he ▸ hl')
        rw [List.mem_cons, or_iff_right hne]

/-- The path of a location. -/
def pathOf : Location → String
  | [] => "/"
  | loc => String.join (loc.reverse.map ("/" ++ ·))

/-- No link stands below `root`. -/
def LinkFreeBelow (t : FileTree) (root : Location) : Prop :=
  ∀ loc target, root <:+ loc → t.get? loc ≠ some (.link target)

/-- Two trees that hold the same entries. -/
def SameEntries (t u : FileTree) : Prop :=
  ∀ loc, t.get? loc = u.get? loc

end FileTree

end Sidecar
