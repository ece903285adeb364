import BitLayout.Proofs.Code.WrittenOut

/-!
# BitLayout.Proofs.Code.Names

The names of the functions in a program. Functions of sectors have the number of the sector in their
names and functions of records the name of the record, behind the same beginnings:

```
__bitpack_read_sector_0      the first sector, or the record `sector_0`
```

So functions have different names unless a record is named like a sector that has functions.

* `Program.titles`: what the names of functions are made from;
* `Program.names_generate`: the names of all functions of a program;
* `generateProgram_nodup_names`: they are different if no record that has functions is named like a
  sector that has functions, and only then.
-/

namespace BitLayout

/-! ## names -/

/-- The name that an identifier stands for, which is the same if the identifier is raw. -/
def identifierName (identifier : String) : String :=
  match identifier.toList with
  | 'r' :: '#' :: name => String.ofList name
  | _ => identifier

/-- A name that does not begin with an underscore does not begin with two. -/
theorem ne_underscores {name : String} (h : name.toList.head? ≠ some '_') (rest : String) :
    name ≠ "__" ++ rest := by
  rintro rfl
  rw [String.toList_append] at h
  exact h rfl

/-- What stands for a sector in the names of its functions. -/
def sectorTitle (sector : Nat) : String := "sector_" ++ toString sector

/-- Different numbers have different texts. -/
theorem toString_inj {n n' : Nat} (h : toString n = toString n') : n = n' := by
  have hdigits : Nat.toDigits 10 n = Nat.toDigits 10 n' := by
    have hrepr : n.repr = n'.repr := h
    rw [Nat.repr_eq_ofList_toDigits, Nat.repr_eq_ofList_toDigits] at hrepr
    exact String.ofList_injective hrepr
  have hten : ∀ n, Nat.ofDigitChars 10 (Nat.toDigits 10 n) 0 = n := fun n =>
    Nat.ofDigitChars_toDigits (by decide) (by decide)
  rw [← hten n, hdigits, hten]

theorem sectorTitle_inj {n n' : Nat} : sectorTitle n = sectorTitle n' ↔ n = n' :=
  ⟨fun h => toString_inj ((String.append_right_inj "sector_").1 h), congrArg sectorTitle⟩

/-- A sector is named like a record. -/
theorem sectorFunction_eq (d : Direction) (sector : Nat) :
    Program.sectorFunction d sector = recordFunction d (sectorTitle sector) := by
  cases d with
  | read =>
    have hbeginning : "__bitpack_read_sector_" = "__bitpack_read_" ++ "sector_" := by decide
    exact (congrArg (· ++ toString sector) hbeginning).trans (String.append_assoc ..)
  | save =>
    have hbeginning : "__bitpack_save_sector_" = "__bitpack_save_" ++ "sector_" := by decide
    exact (congrArg (· ++ toString sector) hbeginning).trans (String.append_assoc ..)

theorem recordFunction_read_ne_save (title title' : String) :
    recordFunction .read title ≠ recordFunction .save title' := by
  intro heq
  have hchars : ("__bitpack_read_" ++ title).toList = ("__bitpack_save_" ++ title').toList :=
    congrArg String.toList heq
  rw [String.toList_append, String.toList_append] at hchars
  have hbeginning : "__bitpack_read_".toList = "__bitpack_save_".toList :=
    List.append_inj_left hchars (by decide)
  exact absurd hbeginning (by decide)

/-- The names of functions of sectors and records begin with underscores, so they are not raw. -/
theorem recordFunction_underscores (d : Direction) (title : String) :
    ∃ rest, recordFunction d title = "__" ++ rest := by
  cases d with
  | read =>
    have hbeginning : "__bitpack_read_" = "__" ++ "bitpack_read_" := by decide
    exact ⟨_, (congrArg (· ++ title) hbeginning).trans (String.append_assoc ..)⟩
  | save =>
    have hbeginning : "__bitpack_save_" = "__" ++ "bitpack_save_" := by decide
    exact ⟨_, (congrArg (· ++ title) hbeginning).trans (String.append_assoc ..)⟩

theorem identifierName_recordFunction (d : Direction) (title : String) :
    identifierName (recordFunction d title) = recordFunction d title := by
  obtain ⟨rest, heq⟩ := recordFunction_underscores d title
  rw [heq, identifierName, String.toList_append]
  rfl

namespace Program

/-- The names of the functions of a program. -/
def names (p : Program) : List String := p.functions.map (identifierName ·.name)

/-- What the names of functions are made from: sectors, if there are several, and records. -/
def titles (c : Config) (m : Model) (sectors : List Sector) : List String :=
  (if sectors.length ≤ 1 then [] else (List.range sectors.length).map sectorTitle) ++
    recordsNeeded c m sectors

section

variable {c : Config} {m : Model} {sectors : List Sector}

/-- **Names**: those of the procedures, and a pair for each sector and for each record. -/
theorem names_generate (c : Config) (m : Model) (sectors : List Sector) :
    (generate c m sectors).names =
      [identifierName c.readName, identifierName c.saveName] ++
      (titles c m sectors).flatMap fun title =>
        [recordFunction .read title, recordFunction .save title] := by
  have hsectors : (sectorFunctionsOf c sectors).map (identifierName ·.name) =
      (if sectors.length ≤ 1 then [] else (List.range sectors.length).map sectorTitle).flatMap
        fun title => [recordFunction .read title, recordFunction .save title] := by
    rw [sectorFunctionsOf]
    split
    · rfl
    · rw [List.range_eq_range', ← List.zipIdx_map_snd 0 sectors, List.map_map, List.flatMap_map,
        List.map_flatMap]
      refine List.flatMap_congr fun numbered _ => ?_
      obtain ⟨s, number⟩ := numbered
      simp only [bothWays, List.map_cons, List.map_nil, sectorFunction_eq,
        identifierName_recordFunction, Function.comp]
  have hrecords : ((recordsNeeded c m sectors).flatMap fun r =>
      bothWays (recordFunctionOf c m r)).map (identifierName ·.name) =
      (recordsNeeded c m sectors).flatMap fun title =>
        [recordFunction .read title, recordFunction .save title] := by
    rw [List.map_flatMap]
    refine List.flatMap_congr fun r _ => ?_
    simp only [bothWays, List.map_cons, List.map_nil, recordFunctionOf,
      identifierName_recordFunction]
  rw [names, functions, generate, List.map_append, List.map_append, hsectors, hrecords, titles,
    List.flatMap_append, List.append_assoc]
  rfl

/-- Pairs of functions have different names if they are made from different titles. -/
theorem nodup_pairs_iff (titles : List String) :
    (titles.flatMap fun title => [recordFunction .read title, recordFunction .save title]).Nodup ↔
      titles.Nodup := by
  rw [List.nodup_flatMap]
  have hpair : ∀ title ∈ titles,
      [recordFunction .read title, recordFunction .save title].Nodup := by
    intro title _
    simp [recordFunction_read_ne_save]
  refine (and_iff_right hpair).trans (List.Pairwise.iff fun title title' => ?_)
  simp [Function.onFun, recordFunction_inj, recordFunction_read_ne_save,
    (recordFunction_read_ne_save _ _).symm, eq_comm]

/-- There is a pair of functions for each of several sectors. -/
theorem length_sectorFunctions (c : Config) (sectors : List Sector) :
    (sectorFunctionsOf c sectors).length =
      if sectors.length ≤ 1 then 0 else 2 * sectors.length := by
  rw [sectorFunctionsOf]
  split
  · rfl
  · simp [List.length_flatMap, bothWays, Nat.mul_comm]

/-- Titles are different if no record is named like a sector that has functions. -/
theorem nodup_titles_iff :
    (titles c m sectors).Nodup ↔ ∀ n, 2 * n < (sectorFunctionsOf c sectors).length →
      sectorTitle n ∉ recordsNeeded c m sectors := by
  rw [titles, length_sectorFunctions, List.nodup_append']
  split
  · simp [nodup_recordsNeeded]
  · have hsectors : ((List.range sectors.length).map sectorTitle).Nodup :=
      (List.nodup_range).map fun _ _ h => sectorTitle_inj.1 h
    simp only [hsectors, nodup_recordsNeeded, List.disjoint_left, List.forall_mem_map,
      List.mem_range, true_and, Nat.mul_lt_mul_left Nat.two_pos]

end

end Program

/-- **Different names**: if the names of the procedures are different and do not begin with
underscores, all functions of a program have different names unless a record that has functions is
named like a sector that has functions. -/
theorem generateProgram_nodup_names {c : Config} {g : Registry} {p : Program}
    (h : generateProgram c g = some (.ok p))
    (hne : identifierName c.readName ≠ identifierName c.saveName)
    (hread : ∀ rest, identifierName c.readName ≠ "__" ++ rest)
    (hsave : ∀ rest, identifierName c.saveName ≠ "__" ++ rest) :
    p.names.Nodup ↔
      ∀ n, 2 * n < p.sectorFunctions.length → sectorTitle n ∉ p.calls .read := by
  obtain ⟨m, sectors, hbuild, herrors, hpack, -, -, rfl⟩ := exists_of_generateProgram h
  have hgrounded := grounded_of_pack hbuild herrors hpack
  have hmade : ∀ name ∈ (Program.titles c m sectors).flatMap fun title =>
      [recordFunction .read title, recordFunction .save title], ∃ rest, name = "__" ++ rest := by
    intro name hname
    obtain ⟨title, -, hname⟩ := List.mem_flatMap.1 hname
    simp only [List.mem_cons, List.not_mem_nil, or_false] at hname
    rcases hname with rfl | rfl <;> exact recordFunction_underscores ..
  have hapart : [identifierName c.readName, identifierName c.saveName].Disjoint
      ((Program.titles c m sectors).flatMap fun title =>
        [recordFunction .read title, recordFunction .save title]) := by
    intro name hprocedure hname
    obtain ⟨rest, rfl⟩ := hmade name hname
    simp only [List.mem_cons, List.not_mem_nil, or_false] at hprocedure
    rcases hprocedure with heq | heq
    · exact hread rest heq.symm
    · exact hsave rest heq.symm
  simp only [Program.mem_calls_iff hbuild herrors hgrounded]
  rw [Program.names_generate, List.nodup_append', Program.nodup_pairs_iff,
    Program.nodup_titles_iff]
  refine ⟨fun h => h.2.1, fun h => ⟨by simpa using hne, h, hapart⟩⟩

/-! ## the small layout, and a record with the name of a sector -/

namespace Sample

theorem small_functions : (program? spacious registry).map (fun p =>
    (p.sectorFunctions.length, p.calls .read)) = some (4, ["S", "A"]) := by
  decide +kernel

/-- The two sectors and two records of the small layout have functions with different names. -/
theorem small_names : ∃ p, generateProgram spacious registry = some (.ok p) ∧
    identifierName spacious.readName ≠ identifierName spacious.saveName ∧
    (∀ rest, identifierName spacious.readName ≠ "__" ++ rest) ∧
    (∀ rest, identifierName spacious.saveName ≠ "__" ++ rest) ∧
    p.sectorFunctions.length = 4 ∧ p.calls .read = ["S", "A"] ∧ p.names.Nodup := by
  obtain ⟨p, hp, hshape⟩ := Option.map_eq_some_iff.1 small_functions
  obtain ⟨hlength, hcalls⟩ := Prod.mk.inj hshape
  have hne : identifierName spacious.readName ≠ identifierName spacious.saveName := by decide
  have hread : ∀ rest, identifierName spacious.readName ≠ "__" ++ rest :=
    ne_underscores (by decide)
  have hsave : ∀ rest, identifierName spacious.saveName ≠ "__" ++ rest :=
    ne_underscores (by decide)
  have hgenerated := eq_ok_of_program? hp
  refine ⟨p, hgenerated, hne, hread, hsave, hlength, hcalls,
    (generateProgram_nodup_names hgenerated hne hread hsave).2 fun n hn => ?_⟩
  rw [hlength] at hn
  rw [hcalls]
  obtain rfl | rfl : n = 0 ∨ n = 1 := by omega
  · decide
  · decide

/-- Two sectors of a byte for a single data object. -/
def crowded : Config :=
  { calling with sectorCount := 2, sectorSize := 1, groups := [[⟨"obj", .name "S"⟩]] }

/-- A struct of two bytes, one of them in a record with the name of a sector. -/
def sectorRecord : Registry where
  records := [
    ⟨"S", .struct, [⟨"a", .name "sector_0", Request.empty⟩, ⟨"b", .name "u8", Request.empty⟩],
      Request.empty, false⟩,
    ⟨"sector_0", .struct, [⟨"x", .name "u8", Request.empty⟩], Request.empty, false⟩]
  aliases := []

theorem sector_record_clash : (program? crowded sectorRecord).map (fun p =>
    decide p.names.Nodup) = some false := by
  decide +kernel

/-- The record and the sector have functions with the same names. -/
theorem same_names : ∃ p, generateProgram crowded sectorRecord = some (.ok p) ∧
    identifierName crowded.readName ≠ identifierName crowded.saveName ∧
    (∀ rest, identifierName crowded.readName ≠ "__" ++ rest) ∧
    (∀ rest, identifierName crowded.saveName ≠ "__" ++ rest) ∧ ¬ p.names.Nodup := by
  obtain ⟨p, hp, hclash⟩ := Option.map_eq_some_iff.1 sector_record_clash
  exact ⟨p, eq_ok_of_program? hp, by decide, ne_underscores (by decide),
    ne_underscores (by decide), of_decide_eq_false hclash⟩

end Sample

end BitLayout
