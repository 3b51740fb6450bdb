import PlayerText.Proofs.Inline.Token

/-!
# The parts of a file name

A file name is cut twice, and from the right both times: behind its last slash, and in what stands
there before the last dot. A dot in a directory does not count, a name that begins with its only dot
has an empty base, and behind a slash at the end there is nothing.

* `NameParts`: a directory, a base and an extension that can make up a file name.
* `exists_directory`, `exists_extension`: the two cuts.
* `lastPart_append`, `beforeLastDot_append`: where they are found.
* `NameParts.baseName_joined`, `NameParts.joined_inj`: the file name tells its parts.
* `exists_nameParts`: every file name has parts.
* `exists_parts_shown`: the parts are unique, and the base is what `%F` puts in.
-/

namespace PlayerText.Inline

open Text

/-- The parts of a file name: directories with the slash behind them, the base, and the last
extension with the dot before it. -/
@[ext]
structure NameParts where
  /-- All that stands before the base. -/
  directory : String
  /-- The name without directories and without its last extension. -/
  base : String
  /-- The last extension. -/
  extension : String
  /-- Directories end with a slash. -/
  directory_end : directory = "" ∨ directory.toList.getLast? = some '/'
  /-- There is no slash behind the directories. -/
  base_noSlash : '/' ∉ base.toList
  /-- There is no slash in the extension either. -/
  extension_noSlash : '/' ∉ extension.toList
  /-- Without an extension there is no dot, and the dot of an extension is the last one. -/
  extension_dot : (extension = "" ∧ '.' ∉ base.toList) ∨
    ∃ suffix, extension.toList = '.' :: suffix ∧ '.' ∉ suffix

/-- The file name that some parts make up. -/
def NameParts.joined (parts : NameParts) : String :=
  parts.directory ++ parts.base ++ parts.extension

section Cuts

variable {stop : Char} {name suffix : List Char}

/-- What holds a character is cut at the last one. -/
theorem exists_last_of_mem (h : stop ∈ name) :
    ∃ before after, name = before ++ stop :: after ∧ stop ∉ after := by
  obtain ⟨after, before, heq, hafter⟩ := List.eq_append_cons_of_mem (List.mem_reverse.mpr h)
  refine ⟨before.reverse, after.reverse, ?_, by simpa using hafter⟩
  have hname := congrArg List.reverse heq
  simpa using hname

/-- Directories end with the last slash. -/
theorem exists_directory (name : List Char) : ∃ directory last : List Char,
    (directory = [] ∨ directory.getLast? = some '/') ∧ '/' ∉ last ∧ name = directory ++ last := by
  by_cases h : '/' ∈ name
  · obtain ⟨outer, last, rfl, hlast⟩ := exists_last_of_mem h
    exact ⟨outer ++ ['/'], last, .inr (by simp), hlast, by simp⟩
  · exact ⟨[], name, .inl rfl, h, rfl⟩

/-- An extension begins with the last dot. -/
theorem exists_extension (name : List Char) : ∃ base extension : List Char,
    ((extension = [] ∧ '.' ∉ base) ∨ ∃ suffix, extension = '.' :: suffix ∧ '.' ∉ suffix) ∧
      name = base ++ extension := by
  by_cases h : '.' ∈ name
  · obtain ⟨base, suffix, rfl, hsuffix⟩ := exists_last_of_mem h
    exact ⟨base, '.' :: suffix, .inr ⟨suffix, rfl, hsuffix⟩, rfl⟩
  · exact ⟨name, [], .inl ⟨rfl, h⟩, (List.append_nil name).symm⟩

/-- Behind the last slash stands the last part. -/
theorem lastPart_append {directory : List Char}
    (hdir : directory = [] ∨ directory.getLast? = some '/') (hname : '/' ∉ name) :
    lastPart (directory ++ name) = name := by
  have hrev : '/' ∉ name.reverse := by simpa using hname
  rcases hdir with rfl | hlast
  · rw [lastPart, List.nil_append, takeWhile_of_not_mem hrev, List.reverse_reverse]
  · obtain ⟨outer, rfl⟩ := List.getLast?_eq_some_iff.mp hlast
    have hcut : (outer ++ ['/'] ++ name).reverse = name.reverse ++ '/' :: outer.reverse := by simp
    rw [lastPart, hcut, takeWhile_append_stop hrev, List.reverse_reverse]

theorem beforeLastDot_of_not_mem (h : '.' ∉ name) : beforeLastDot name = name := if_neg h

/-- A name with an extension ends before the dot of it. -/
theorem beforeLastDot_append (h : '.' ∉ suffix) :
    beforeLastDot (name ++ '.' :: suffix) = name := by
  have hcut : (name ++ '.' :: suffix).reverse = suffix.reverse ++ '.' :: name.reverse := by simp
  rw [beforeLastDot, if_pos (by simp), hcut, dropWhile_append_stop (by simpa using h),
    List.drop_one, List.tail_cons, List.reverse_reverse]

end Cuts

namespace NameParts

variable (parts : NameParts)

theorem toList_joined : parts.joined.toList =
    parts.directory.toList ++ (parts.base.toList ++ parts.extension.toList) := by
  simp [joined]

/-- The last part of a file name is its base and its extension. -/
theorem lastPart_joined :
    lastPart parts.joined.toList = parts.base.toList ++ parts.extension.toList := by
  rw [toList_joined]
  apply lastPart_append
  · exact parts.directory_end.imp_left fun h => by rw [h]; rfl
  · rw [List.mem_append]
    exact not_or.mpr ⟨parts.base_noSlash, parts.extension_noSlash⟩

/-- The base of a file name is the base among its parts. -/
theorem baseName_joined : baseName parts.joined = parts.base := by
  have hbase : beforeLastDot (parts.base.toList ++ parts.extension.toList) = parts.base.toList := by
    rcases parts.extension_dot with ⟨hnone, hdot⟩ | ⟨suffix, hsome, hdot⟩
    · rw [hnone, String.toList_empty, List.append_nil]
      exact beforeLastDot_of_not_mem hdot
    · rw [hsome]
      exact beforeLastDot_append hdot
  rw [baseName, lastPart_joined, hbase, String.ofList_toList]

/-- A file name has its parts in one way only. -/
theorem joined_inj {parts other : NameParts} (h : parts.joined = other.joined) :
    parts = other := by
  have hbase : parts.base = other.base := by
    rw [← baseName_joined, ← baseName_joined, h]
  have hlast : parts.base.toList ++ parts.extension.toList =
      other.base.toList ++ other.extension.toList := by
    rw [← lastPart_joined, ← lastPart_joined, h]
  have hextension : parts.extension.toList = other.extension.toList := by
    rw [hbase] at hlast
    exact List.append_cancel_left hlast
  have hdirectory : parts.directory.toList = other.directory.toList := by
    have hjoined := congrArg String.toList h
    rw [toList_joined, toList_joined, hlast] at hjoined
    exact List.append_cancel_right hjoined
  exact NameParts.ext (String.toList_inj.mp hdirectory) hbase (String.toList_inj.mp hextension)

end NameParts

/-- Every file name has parts. -/
theorem exists_nameParts (fileName : String) : ∃ parts : NameParts, parts.joined = fileName := by
  obtain ⟨directory, last, hdirectory, hlast, hname⟩ := exists_directory fileName.toList
  obtain ⟨base, extension, hdot, rfl⟩ := exists_extension last
  rw [List.mem_append, not_or] at hlast
  refine ⟨⟨.ofList directory, .ofList base, .ofList extension, ?_, ?_, ?_, ?_⟩, ?_⟩
  · simpa using hdirectory
  · simpa using hlast.1
  · simpa using hlast.2
  · simpa using hdot
  · rw [← String.toList_inj, NameParts.toList_joined, hname]
    simp

/-- A file name is a directory, a base and an extension in exactly one way, and `%F` puts in the
base, wherever it stands in a format. -/
theorem exists_parts_shown (ctx : Context) :
    ∃ parts : NameParts, parts.joined = ctx.fileName ∧
      (∀ other : NameParts, other.joined = ctx.fileName → other = parts) ∧
      (∀ now after, ctx.render now ("%F" ++ after) = parts.base ++ ctx.render now after) ∧
      ∀ now format, ctx.render now format = String.join ((tokens format.toList).map fun token =>
        if token = .baseName then parts.base else token.emit ctx now) := by
  obtain ⟨parts, hparts⟩ := exists_nameParts ctx.fileName
  have hbase : baseName ctx.fileName = parts.base := by rw [← hparts, parts.baseName_joined]
  refine ⟨parts, hparts, fun other hother => ?_, fun now after => ?_, fun now format => ?_⟩
  · exact NameParts.joined_inj (hother.trans hparts.symm)
  · rw [Context.render, String.toList_append]
    exact (renderChars_directive 'F' after.toList).trans (by rw [← hbase]; rfl)
  · have hemit : ∀ token : Token, token.emit ctx now =
        if token = .baseName then parts.base else token.emit ctx now := fun token => by
      split
      · next h => rw [h, ← hbase]; rfl
      · rfl
    rw [Context.render, renderChars_eq_join_emit]
    exact congrArg String.join (List.map_congr_left fun token _ => hemit token)

/-- A dot in a directory does not count, and of two suffixes the last is the extension. -/
example : baseName "v1.2/archive.tar.gz" = "archive.tar" := by decide

end PlayerText.Inline
