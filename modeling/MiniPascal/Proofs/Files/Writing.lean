import MiniPascal.Files.FileSystem

/-!
# Writing files

A path is followed through directories that are there, so a file that is written at its end
makes no new directory: everything else in the file system is as it was.  The way to the
file goes through none of its own, so the path leads to the same place afterwards, and
reads as what was written.
-/

namespace MiniPascal.FileSystem

/-- A place and all directories on the way to it are there. -/
def Reached (files : FileSystem) (place : Place) : Prop :=
  ∀ outer, outer <:+ place → files.entry? outer ≠ none

variable {files : FileSystem}

/-! ### Following a path -/

theorem entry?_ne_none_of_above {place : Place} (h : place.all (· == Place.above) = true) :
    files.entry? place ≠ none := by
  unfold entry?
  split
  · exact Option.some_ne_none _
  · rw [h]
    exact Option.some_ne_none _

theorem reached_of_above {place : Place} (h : place.all (· == Place.above) = true) :
    files.Reached place := by
  intro outer houter
  refine entry?_ne_none_of_above (List.all_eq_true.mpr fun name hname => ?_)
  exact List.all_eq_true.mp h name (houter.subset hname)

theorem reached_top : files.Reached [Place.top] := by
  intro outer houter
  rcases List.suffix_cons_iff.mp houter with rfl | hnil
  · unfold entry?
    split
    · exact Option.some_ne_none _
    · simp
  · rw [List.suffix_nil.mp hnil]
    exact entry?_ne_none_of_above rfl

theorem Reached.parent {directory : Place} (h : files.Reached directory) :
    files.Reached (parent directory) := by
  unfold FileSystem.parent
  split
  · next habove =>
      refine reached_of_above ?_
      rw [List.all_cons, habove]
      rfl
  · split
    · exact h
    · exact fun outer houter => h outer (houter.trans (List.tail_suffix directory))

/-- The directory that is looked into is there, and those on the way to it are. -/
theorem Reached.of_look {component : List Char} {directory : Place} {entry : Entry}
    (h : files.Reached directory)
    (hlook : files.look (component :: directory) = .ok (some entry)) :
    files.Reached (component :: directory) := by
  intro outer houter
  rcases List.suffix_cons_iff.mp houter with rfl | hsuffix
  · unfold look at hlook
    split at hlook
    · cases hlook
    · rw [Except.ok.inj hlook]
      exact Option.some_ne_none entry
  · exact h outer hsuffix

/-- The place a path leads to lies in a directory that is there. -/
theorem reached_of_follow {components : List (List Char)} {directory place : Place}
    (h : files.Reached directory) (hfollow : files.follow directory components = .ok place) :
    ∀ outer, outer <:+ place → outer ≠ place → files.entry? outer ≠ none := by
  induction components generalizing directory with
  | nil =>
      obtain rfl := Except.ok.inj hfollow
      exact fun outer houter _ => h outer houter
  | cons component others ih =>
      unfold follow at hfollow
      split at hfollow
      · exact ih h hfollow
      · split at hfollow
        · exact ih h.parent hfollow
        · split at hfollow
          · obtain rfl := Except.ok.inj hfollow
            intro outer houter hne
            exact h outer ((List.suffix_cons_iff.mp houter).resolve_left hne)
          · split at hfollow
            · next hlook => exact ih (h.of_look hlook) hfollow
            · cases hfollow
            · cases hfollow
            · cases hfollow

theorem reached_of_walk {path : List Char} {place : Place} (h : files.walk path = .ok place) :
    ∀ outer, outer <:+ place → outer ≠ place → files.entry? outer ≠ none := by
  unfold walk at h
  split at h
  · cases h
  · exact reached_of_follow reached_top h
  · exact reached_of_follow (reached_of_above rfl) h

/-! ### File systems that differ in one file -/

section

variable {other : FileSystem} {place : Place}

theorem look_congr {looked : Place} (h : other.entry? looked = files.entry? looked) :
    other.look looked = files.look looked := by
  rw [look, look, h]

/-- A path that does not lead through a directory at the place is followed as before. -/
theorem follow_congr (hsame : ∀ looked ≠ place, other.entry? looked = files.entry? looked)
    (hplace : files.entry? place ≠ some .directory) {components : List (List Char)}
    {directory found : Place} (h : files.follow directory components = .ok found) :
    other.follow directory components = .ok found := by
  induction components generalizing directory with
  | nil => exact h
  | cons component others ih =>
      unfold follow at h ⊢
      split
      · next hidle =>
          rw [if_pos hidle] at h
          exact ih h
      · next hidle =>
          rw [if_neg hidle] at h
          split
          · next habove =>
              rw [if_pos habove] at h
              exact ih h
          · next habove =>
              rw [if_neg habove] at h
              split
              · next hlast =>
                  rw [if_pos hlast] at h
                  exact h
              · next hlast =>
                  rw [if_neg hlast] at h
                  split at h
                  · next hlook =>
                      have hne : component :: directory ≠ place := by
                        rintro rfl
                        unfold look at hlook
                        split at hlook
                        · cases hlook
                        · exact hplace (Except.ok.inj hlook)
                      rw [look_congr (hsame _ hne), hlook]
                      exact ih h
                  · cases h
                  · cases h
                  · cases h

theorem walk_congr (hsame : ∀ looked ≠ place, other.entry? looked = files.entry? looked)
    (hplace : files.entry? place ≠ some .directory) {path : List Char} {found : Place}
    (h : files.walk path = .ok found) : other.walk path = .ok found := by
  unfold walk at h ⊢
  split at h
  · cases h
  · exact follow_congr hsame hplace h
  · exact follow_congr hsame hplace h

end

/-! ### Writing -/

section

variable {place : Place} {content : ByteArray}

/-- A file written at a place is found there. -/
theorem entry?_written (files : FileSystem) (place : Place) (content : ByteArray) :
    entry? { entries := (place, .file content) :: files.entries } place = some (.file content) := by
  unfold entry?
  rw [List.lookup_cons_self]

/-- What has no entry of its own is a directory if something lies below it. -/
theorem entry?_of_lookup_eq_none {looked : Place} (h : files.entries.lookup looked = none) :
    files.entry? looked =
      if looked.all (· == Place.above) || looked == [Place.top] ||
          files.entries.any (fun entry => looked.isSuffixOf entry.1) then
        some .directory
      else none := by
  unfold entry?
  rw [h]

/-- A file written at a place in a directory that is there leaves everything else. -/
theorem entry?_written_of_ne
    (hreached : ∀ outer, outer <:+ place → outer ≠ place → files.entry? outer ≠ none)
    {looked : Place} (hne : looked ≠ place) :
    entry? { entries := (place, .file content) :: files.entries } looked =
      files.entry? looked := by
  have hlookup : ((place, Entry.file content) :: files.entries).lookup looked =
      files.entries.lookup looked := by
    rw [List.lookup_cons, beq_false_of_ne hne]
  cases hfound : files.entries.lookup looked with
  | some entry =>
      unfold entry?
      rw [hlookup, hfound]
  | none =>
      have hthere := hreached looked
      rw [entry?_of_lookup_eq_none hfound] at hthere ⊢
      rw [entry?_of_lookup_eq_none (hlookup.trans hfound), List.any_cons]
      cases hsuffix : looked.isSuffixOf place with
      | false => rw [Bool.false_or]
      | true =>
          split at hthere
          · next hdirectory => rw [Bool.true_or, Bool.or_true, if_pos rfl, if_pos hdirectory]
          · exact absurd rfl (hthere (List.isSuffixOf_iff_suffix.mp hsuffix) hne)

end

theorem dropSlashes_of_ne {path : List Char} (h : path.getLast? ≠ some '/') :
    Path.dropSlashes path = path := by
  cases path with
  | nil => rfl
  | cons c rest =>
      have hkept : rest.reverse.dropWhile (· = '/') = rest.reverse := by
        cases hreverse : rest.reverse with
        | nil => rfl
        | cons last others =>
            have hlast : last ≠ '/' := by
              rintro rfl
              apply h
              rw [List.reverse_eq_cons_iff.mp hreverse, ← List.cons_append, List.getLast?_concat]
            rw [List.dropWhile_cons_of_neg]
            simpa using hlast
      rw [Path.dropSlashes, hkept, List.reverse_reverse]

/-- A file is created where its path leads. -/
theorem place_of_creationPlace {path : String} {place : Place}
    (h : files.creationPlace path = .ok place) :
    admitPath path = .ok () ∧ files.walk path.toList = .ok place := by
  unfold creationPlace at h
  cases hadmitted : admitPath path with
  | error error =>
      rw [hadmitted] at h
      cases h
  | ok done =>
      rw [hadmitted] at h
      change (files.walk (Path.dropSlashes path.toList) >>= fun place =>
        if path.toList.getLast? = some '/' then .error .isDirectory else .ok place) = _ at h
      cases hwalk : files.walk (Path.dropSlashes path.toList) with
      | error error =>
          rw [hwalk] at h
          cases h
      | ok found =>
          rw [hwalk] at h
          change (if path.toList.getLast? = some '/' then _ else _) = _ at h
          split at h
          · cases h
          · next hlast =>
              obtain rfl := Except.ok.inj h
              rw [dropSlashes_of_ne hlast] at hwalk
              exact ⟨rfl, hwalk⟩

/-- A file is written at the place of its creation, where no directory is. -/
theorem written_of_write {path : String} {content : ByteArray} {after : FileSystem}
    (h : files.write path content = .ok after) :
    ∃ place, files.creationPlace path = .ok place ∧ files.entry? place ≠ some .directory ∧
      place.head?.any Path.isOverlong = false ∧
      after = { entries := (place, .file content) :: files.entries } := by
  unfold write at h
  cases hplace : files.creationPlace path with
  | error error =>
      rw [hplace] at h
      cases h
  | ok place =>
      rw [hplace] at h
      change (files.look place >>= fun entry? => _) = _ at h
      unfold look at h
      cases hlong : place.head?.any Path.isOverlong with
      | true =>
          rw [if_pos hlong] at h
          cases h
      | false =>
          rw [if_neg (Bool.eq_false_iff.mp hlong)] at h
          cases hentry : files.entry? place with
          | none =>
              rw [hentry] at h
              obtain rfl := Except.ok.inj h
              refine ⟨place, rfl, ?_, hlong, rfl⟩
              rw [hentry]
              exact (Option.some_ne_none Entry.directory).symm
          | some entry =>
              rw [hentry] at h
              cases entry with
              | directory => cases h
              | file content =>
                  obtain rfl := Except.ok.inj h
                  refine ⟨place, rfl, ?_, hlong, rfl⟩
                  rw [hentry]
                  intro hdirectory
                  cases hdirectory

/-- A file that is written can be read by the same path, and every other place has what
it had. -/
theorem exists_of_write {path : String} {content : ByteArray} {after : FileSystem}
    (h : files.write path content = .ok after) :
    ∃ place, files.creationPlace path = .ok place ∧ after.entry? place = some (.file content) ∧
      after.read path = .ok content ∧
      ∀ other ≠ place, after.entry? other = files.entry? other := by
  obtain ⟨place, hplace, hfile, hlong, rfl⟩ := written_of_write h
  obtain ⟨hadmitted, hwalk⟩ := place_of_creationPlace hplace
  have hself := entry?_written files place content
  have hother : ∀ other ≠ place,
      entry? { entries := (place, .file content) :: files.entries } other = files.entry? other :=
    fun _ hne => entry?_written_of_ne (reached_of_walk hwalk) hne
  refine ⟨place, hplace, hself, ?_, hother⟩
  have hlook : look { entries := (place, .file content) :: files.entries } place =
      .ok (some (.file content)) := by
    rw [look, hlong, hself]
    rfl
  unfold read FileSystem.place
  rw [hadmitted]
  change (walk _ path.toList >>= fun _ => _) = _
  rw [walk_congr hother hfile hwalk]
  change (look _ place >>= fun _ => _) = _
  rw [hlook]
  rfl

end MiniPascal.FileSystem
