import SourceTables.Path

/-!
# `SourceTables.Proofs.Path`: components in order, and names in directories

Components are ordered as their kinds are, and names as their texts. This order is transitive and tells
different components apart, so that lists of components can be keys of maps.

The pieces of a name that is joined to a directory are those that lead to the directory, and the name:
`Path.rawPieces_join`.
-/

set_option autoImplicit false

namespace SourceTables

/-! ### The order of components -/

/-- The place of a component's kind in the order of components. -/
def Component.rank : Component → Nat
  | .root => 0
  | .current => 1
  | .parent => 2
  | .name _ => 3

/-- Components are in the order of their kinds, and names in the order of their texts. -/
theorem Component.compare_eq (c d : Component) :
    compare c d = compareLex (compareOn rank) (compareOn Component.text) c d := by
  have texts (s : String) : compare s s = .eq := Std.ReflCmp.compare_self
  cases c <;> cases d <;> first | rfl | exact (texts _).symm | skip
  next s t =>
    show (compare s t).then .eq = compare s t
    simp

/-- Components with the same place and the same text are equal. -/
theorem Component.eq_of_rank_text {c d : Component} (hrank : c.rank = d.rank)
    (htext : c.text = d.text) : c = d := by
  cases c <;> cases d <;> first | rfl | exact congrArg Component.name htext | cases hrank

instance : Std.TransOrd Component := by
  have h : (compare : Component → Component → Ordering)
      = compareLex (compareOn Component.rank) (compareOn Component.text) :=
    funext fun c => funext fun d => Component.compare_eq c d
  unfold Std.TransOrd
  rw [h]
  infer_instance

instance : Std.LawfulEqOrd Component where
  compare_self := Std.ReflCmp.compare_self
  eq_of_compare := by
    intro c d h
    rw [Component.compare_eq, compareLex, Ordering.then_eq_eq] at h
    exact Component.eq_of_rank_text (Std.LawfulEqOrd.eq_of_compare h.1)
      (Std.LawfulEqOrd.eq_of_compare h.2)

/-! ### Names in directories -/

namespace Path

/-- Whether a text can be the name of a file. -/
structure IsName (name : String) : Prop where
  nonempty : name ≠ ""
  current : name ≠ "."
  parent : name ≠ ".."
  slash : ∀ c ∈ name.toList, (c == '/') = false

/-- A text in which no slash is found has none. -/
theorem ne_slash_of_all {cs : List Char} (h : cs.all (fun c => !(c == '/')) = true) :
    ∀ c ∈ cs, (c == '/') = false := fun c hc =>
  (Bool.not_eq_true' _).mp (List.all_eq_true.mp h c hc)

theorem isName_iff {name : String} : IsName name ↔
    name ≠ "" ∧ name ≠ "." ∧ name ≠ ".." ∧ name.toList.all (fun c => !(c == '/')) = true := by
  constructor
  · rintro ⟨hnonempty, hcurrent, hparent, hslash⟩
    exact ⟨hnonempty, hcurrent, hparent, by simpa using hslash⟩
  · rintro ⟨hnonempty, hcurrent, hparent, hslash⟩
    exact ⟨hnonempty, hcurrent, hparent, ne_slash_of_all hslash⟩

instance (name : String) : Decidable (IsName name) := decidable_of_iff' _ isName_iff

/-- The pieces that lead to a directory when a name is joined to it. -/
def above (dir : Path) : List String :=
  if dir.text.isEmpty then []
  else if dir.text.toList.getLast? == some '/' then dir.rawPieces.dropLast
  else dir.rawPieces

/-- The last pieces of a text are those of what follows a slash in it. -/
theorem rawPieces_append_path (text : String) {rel : Path} (hrel : rel.isAbsolute = false) :
    (⟨text ++ "/" ++ rel.text⟩ : Path).rawPieces
      = (if text.isEmpty then [] else (⟨text⟩ : Path).rawPieces) ++ rel.rawPieces := by
  have hlist : (text ++ "/" ++ rel.text).toList = text.toList ++ '/' :: rel.text.toList := by simp
  have hraw : rel.rawPieces = (Text.split (· == '/') rel.text.toList).map String.ofList := by
    rw [rawPieces, hrel]
    rfl
  rw [hraw]
  unfold rawPieces isAbsolute
  rw [hlist, Text.split_append _ _ rfl]
  cases htext : text.toList with
  | nil =>
    have hempty : text.isEmpty = true := by simpa using htext
    simp [hempty, Text.split]
  | cons c cs =>
    have hempty : text.isEmpty = false := by
      rw [Bool.eq_false_iff]
      intro h
      simp [String.isEmpty_iff.mp h] at htext
    obtain ⟨piece, pieces, hpieces⟩ := List.exists_cons_of_ne_nil (Text.split_ne_nil (· == '/') (c :: cs))
    rw [hpieces, hempty]
    by_cases hc : (c == '/') = true
    · simp [beq_iff_eq.mp hc]
    · have hc : c ≠ '/' := fun h => hc (beq_iff_eq.mpr h)
      simp [hc]

/-- The last piece of a text is what follows its last slash. -/
theorem rawPieces_append (text name : String) (hname : ∀ c ∈ name.toList, (c == '/') = false) :
    (⟨text ++ "/" ++ name⟩ : Path).rawPieces
      = (if text.isEmpty then [] else (⟨text⟩ : Path).rawPieces) ++ [name] := by
  have hrel : (⟨name⟩ : Path).isAbsolute = false := by
    unfold isAbsolute
    cases hlist : name.toList with
    | nil => rfl
    | cons c cs => exact hname c (hlist ▸ List.mem_cons_self)
  have hraw : (⟨name⟩ : Path).rawPieces = [name] := by
    rw [rawPieces, hrel, Text.split_eq_singleton _ _ hname]
    simp
  rw [← hraw]
  exact rawPieces_append_path text hrel

/-- A name counts as a component. -/
theorem IsName.counts {name : String} (h : IsName name) :
    Piece.counts ⟨name, name != "" && name != "."⟩ = true := by
  simp [h.nonempty, h.current]

/-- A name is a relative path. -/
theorem IsName.isAbsolute {name : String} (h : IsName name) : (⟨name⟩ : Path).isAbsolute = false := by
  unfold Path.isAbsolute
  cases hlist : name.toList with
  | nil => rfl
  | cons c cs => exact h.slash c (hlist ▸ List.mem_cons_self)

/-- A path that ends in a slash is another path and a slash. -/
theorem eq_append_slash {dir : Path} (h : (dir.text.toList.getLast? == some '/') = true) :
    ∃ s, dir = ⟨s ++ "/"⟩ := by
  obtain ⟨text⟩ := dir
  obtain ⟨cs, hcs⟩ := List.getLast?_eq_some_iff.mp (beq_iff_eq.mp h)
  refine ⟨String.ofList cs, ?_⟩
  rw [← String.ofList_toList (s := text), hcs]
  simp

/-- The pieces of a name in a directory. -/
theorem rawPieces_join (dir : Path) {name : String} (hname : IsName name) :
    (dir.join ⟨name⟩).rawPieces = dir.above ++ [name] := by
  unfold join above
  rw [hname.isAbsolute, Bool.false_or]
  by_cases hempty : dir.text.isEmpty = true
  · rw [if_pos hempty, if_pos hempty, rawPieces, hname.isAbsolute, Text.split_eq_singleton _ _ hname.slash]
    simp
  · rw [if_neg hempty, if_neg hempty]
    by_cases hslash : (dir.text.toList.getLast? == some '/') = true
    · rw [if_pos hslash, if_pos hslash]
      obtain ⟨s, rfl⟩ := eq_append_slash hslash
      rw [rawPieces_append s name hname.slash]
      have hdir := rawPieces_append s "" nofun
      rw [String.append_empty] at hdir
      rw [hdir, List.dropLast_concat]
    · rw [if_neg hslash, if_neg hslash, rawPieces_append _ _ hname.slash, if_neg hempty]

/-- A name in a directory starts where the directory does. -/
theorem isAbsolute_join (dir : Path) {name : String} (hname : IsName name) :
    (dir.join ⟨name⟩).isAbsolute = dir.isAbsolute := by
  unfold join
  rw [hname.isAbsolute, Bool.false_or]
  split
  · next hempty =>
    rw [hname.isAbsolute]
    simp [isAbsolute, String.isEmpty_iff.mp hempty]
  · next hempty =>
    obtain ⟨c, cs, hcs⟩ : ∃ c cs, dir.text.toList = c :: cs :=
      List.exists_cons_of_ne_nil (by simpa using hempty)
    split <;> simp [isAbsolute, hcs]

/-- The pieces that texts between slashes are. -/
def piecesOf (absolute : Bool) (raw : List String) : List Piece :=
  let later := fun s => Piece.mk s (s != "" && s != ".")
  match raw with
  | [] => []
  | s :: rest => (if absolute then later s else ⟨s, s != ""⟩) :: rest.map later

theorem pieces_eq (p : Path) : p.pieces = piecesOf p.isAbsolute p.rawPieces := rfl

/-- The components below the root that pieces stand for. -/
def below (absolute : Bool) (raw : List String) : List Component :=
  ((piecesOf absolute raw).filter Piece.counts).map Piece.component

theorem components_eq (p : Path) :
    p.components = (if p.isAbsolute then [.root] else []) ++ below p.isAbsolute p.rawPieces := by
  unfold components below
  rw [pieces_eq]
  cases p.isAbsolute <;> rfl

/-- An empty piece at the end stands for nothing. -/
theorem below_append_empty (absolute : Bool) (raw : List String) :
    below absolute (raw ++ [""]) = below absolute raw := by
  cases raw with
  | nil => cases absolute <;> simp [below, piecesOf]
  | cons s rest => simp [below, piecesOf, List.filter_cons]

/-- A name at the end stands for itself. -/
theorem below_append_name (absolute : Bool) (raw : List String) {name : String} (hname : IsName name) :
    below absolute (raw ++ [name]) = below absolute raw ++ [.name name] := by
  have hcomponent (counts : Bool) : Piece.component ⟨name, counts⟩ = .name name := by
    simp [Piece.component, hname.current, hname.parent]
  cases raw with
  | nil => cases absolute <;> simp [below, piecesOf, hname.nonempty, hname.current, hcomponent]
  | cons s rest =>
    rw [List.cons_append]
    simp only [below, piecesOf, List.map_append]
    rw [← List.cons_append, List.filter_append, List.map_append]
    congr 1
    rw [List.map_singleton, List.filter_cons_of_pos hname.counts, List.filter_nil, List.map_singleton,
      hcomponent]

/-- The pieces that lead to a directory stand for its components. -/
theorem below_above (dir : Path) :
    below dir.isAbsolute dir.above = below dir.isAbsolute dir.rawPieces := by
  unfold above
  split
  · next hempty =>
    have hdir : dir = ⟨""⟩ := congrArg Path.mk (String.isEmpty_iff.mp hempty)
    rw [hdir]
    rfl
  · split
    · next hslash =>
      obtain ⟨s, rfl⟩ := eq_append_slash hslash
      have hraw := rawPieces_append s "" nofun
      rw [String.append_empty] at hraw
      rw [hraw, List.dropLast_concat, below_append_empty]
    · rfl

/-- A name in a directory is one component more. -/
theorem components_join (dir : Path) {name : String} (hname : IsName name) :
    (dir.join ⟨name⟩).components = dir.components ++ [.name name] := by
  rw [components_eq, components_eq, isAbsolute_join dir hname, rawPieces_join dir hname,
    below_append_name _ _ hname, below_above, List.append_assoc]

/-- The file name of a name in a directory. -/
theorem fileName?_join (dir : Path) {name : String} (hname : IsName name) :
    (dir.join ⟨name⟩).fileName? = some name := by
  rw [fileName?, components_join dir hname, List.getLast?_concat]

/-- A name with an extension is cut at the dot before it. -/
theorem cutName_append {stem ext : String} (hstem : stem ≠ "") (hext : ∀ c ∈ ext.toList, c ≠ '.') :
    cutName (stem ++ "." ++ ext) = (stem, some ext) := by
  have hreverse : (stem ++ "." ++ ext).toList.reverse = ext.toList.reverse ++ '.' :: stem.toList.reverse := by
    simp
  have hafter : (stem ++ "." ++ ext).toList.reverse.takeWhile (· != '.') = ext.toList.reverse := by
    rw [hreverse, List.takeWhile_append_of_pos (by simpa using hext)]
    simp
  have hbefore : ((stem ++ "." ++ ext).toList.reverse.drop ext.toList.reverse.length).drop 1
      = stem.toList.reverse := by
    rw [hreverse, List.drop_left]
    rfl
  unfold cutName
  rw [hafter]
  dsimp only
  rw [hbefore]
  simp [hstem]

end Path

end SourceTables
