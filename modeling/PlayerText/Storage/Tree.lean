/-!
# A tree of directories

The tree of a file system: directories hold nodes by their names, files hold bytes. A path through
the tree is a list of names.

* `Node`, `Folder`: what a tree is made of.
* `Entry`: what a node is by itself.
* `find?`: the node at the end of some names.
* `graft`: the tree with another node there.
* `find?_graft`: what a new entry changes.
-/

namespace PlayerText.Storage

/-- A node with all that is below it. -/
inductive Node where
  | file (content : ByteArray)
  | directory (children : List (String × Node))

/-- The nodes of a directory by their names. -/
abbrev Folder := List (String × Node)

/-- The nodes of a directory with another one of a name, or none. -/
def Folder.put (folder : Folder) (name : String) (node : Option Node) : Folder :=
  let others := folder.filter fun child => child.1 != name
  match node with
  | some n => (name, n) :: others
  | none => others

/-- What a node is, whatever is below it. -/
inductive Entry where
  | file (content : ByteArray)
  | directory

/-- An entry as a node with nothing below it. -/
def Entry.node : Entry → Node
  | .file content => .file content
  | .directory => .directory []

namespace Node

/-- The entry that a node is. -/
def entry : Node → Entry
  | .file content => .file content
  | .directory _ => .directory

/-- The node at the end of some names, the first one first. -/
def find? : (names : List String) → Option Node → Option Node
  | [], node => node
  | name :: inner, some (.directory children) => find? inner (children.lookup name)
  | _ :: _, _ => none

/-- The tree with another node, or none, at the end of some names. Only a directory takes one. -/
def graft (new : Option Node) : (names : List String) → Option Node → Option Node
  | [], _ => new
  | name :: inner, some (.directory children) =>
    some (.directory (Folder.put children name (graft new inner (children.lookup name))))
  | _ :: _, node => node

end Node

namespace Folder

theorem lookup_filter_ne (folder : Folder) {name other : String} (h : other ≠ name) :
    (folder.filter fun child => child.1 != name).lookup other = folder.lookup other := by
  induction folder with
  | nil => rfl
  | cons child r ih =>
    obtain ⟨n, node⟩ := child
    by_cases hn : n = name
    · subst hn
      rw [List.filter_cons_of_neg (by simp), ih, List.lookup_cons, beq_false_of_ne h]
    · rw [List.filter_cons_of_pos (by simp [hn]), List.lookup_cons, List.lookup_cons, ih]

theorem lookup_filter_self (folder : Folder) (name : String) :
    (folder.filter fun child => child.1 != name).lookup name = none := by
  induction folder with
  | nil => rfl
  | cons child r ih =>
    obtain ⟨n, node⟩ := child
    by_cases hn : n = name
    · rw [List.filter_cons_of_neg (by simp [hn]), ih]
    · rw [List.filter_cons_of_pos (by simp [hn]), List.lookup_cons, ih,
        beq_false_of_ne (Ne.symm hn)]

/-- A change of one name leaves the others alone. -/
theorem lookup_put (folder : Folder) (name other : String) (node : Option Node) :
    (folder.put name node).lookup other = if other = name then node else folder.lookup other := by
  by_cases h : other = name
  · subst h
    rw [if_pos rfl]
    cases node with
    | none => exact lookup_filter_self folder other
    | some n => rw [put, List.lookup_cons, beq_self_eq_true]
  · rw [if_neg h]
    cases node with
    | none => exact lookup_filter_ne folder h
    | some n => rw [put, List.lookup_cons, beq_false_of_ne h]; exact lookup_filter_ne folder h

end Folder

namespace Node

theorem find?_none (names : List String) : find? names none = none := by cases names <;> rfl

theorem find?_append (names inner : List String) (node : Option Node) :
    find? (names ++ inner) node = find? inner (find? names node) := by
  induction names generalizing node with
  | nil => rfl
  | cons name r ih =>
    rcases node with _ | _ | children
    · exact (find?_none inner).symm
    · exact (find?_none inner).symm
    · exact ih (children.lookup name)

theorem map_entry_ofEntry (entry : Option Entry) :
    (entry.map Entry.node).map Node.entry = entry := by
  rcases entry with _ | _ | _ <;> rfl

/-- Nothing is below what is no directory. -/
theorem find?_cons_of_ne {name : String} {inner : List String} {node : Option Node}
    (h : node.map entry ≠ some .directory) : find? (name :: inner) node = none := by
  rcases node with _ | _ | _
  · rfl
  · rfl
  · exact absurd rfl h

/-- Nothing is below a new entry. -/
theorem find?_cons_ofEntry (name : String) (inner : List String) (entry : Option Entry) :
    find? (name :: inner) (entry.map Entry.node) = none := by
  rcases entry with _ | _ | _
  · rfl
  · rfl
  · cases inner <;> rfl

/-- A new entry of a name in a directory that is there, where no directory had the name, changes
what stands at the end of those names and of no others. -/
theorem find?_graft {names : List String} {name : String} {node : Option Node} {folder : Folder}
    (parent : find? names node = some (.directory folder))
    (free : (folder.lookup name).map entry ≠ some .directory) (new : Option Entry)
    (other : List String) :
    (find? other (graft (new.map Entry.node) (names ++ [name]) node)).map entry =
      if other = names ++ [name] then new else (find? other node).map entry := by
  induction names generalizing node other with
  | nil =>
    cases parent
    match other with
    | [] => rfl
    | first :: rest =>
      simp only [List.nil_append, graft, find?, Folder.lookup_put, List.cons.injEq]
      by_cases h : first = name
      · subst h
        cases rest with
        | nil => rw [find?, if_pos rfl, map_entry_ofEntry, if_pos ⟨rfl, rfl⟩]
        | cons r rs => simp [find?_cons_ofEntry, find?_cons_of_ne free]
      · simp [h]
  | cons n inner ih =>
    obtain _ | _ | children := node
    · cases parent
    · cases parent
    · match other with
      | [] => rfl
      | first :: rest =>
        simp only [List.cons_append, graft, find?, Folder.lookup_put, List.cons.injEq]
        by_cases h : first = n
        · subst h
          simpa using ih parent rest
        · simp [h]

end Node

end PlayerText.Storage
