import Mathlib
import WeightedStore.Proofs.Index.Parts
import WeightedStore.Proofs.Traversal
import WeightedStore.Shard.Catalog

/-!
Shards partition what is stored. Each numbered file belongs to one shard, so all shards together read the files
that a single one reads, and index by index they hold what that one holds. A folder that cannot be read by one
of them cannot be read by the single one either.
-/

namespace WeightedStore

theorem perm_flatMap_filter {α : Type} (f : α → Nat) (xs : List α) (n : Nat) :
    ((List.range n).flatMap fun i => xs.filter fun x => f x = i).Perm (xs.filter fun x => f x < n) := by
  induction n with
  | zero => simp
  | succ n ih =>
    rw [List.range_succ, List.flatMap_append, List.flatMap_singleton]
    have hbelow : (xs.filter fun x => f x < n + 1).filter (fun x => f x < n) = xs.filter fun x => f x < n := by
      rw [List.filter_filter]
      refine List.filter_congr fun x _ => ?_
      rw [← Bool.decide_and]
      exact decide_eq_decide.2 ⟨And.left, fun hlt => ⟨hlt, Nat.lt_succ_of_lt hlt⟩⟩
    have hlast : (xs.filter fun x => f x < n + 1).filter (fun x => !decide (f x < n)) =
        xs.filter fun x => f x = n := by
      rw [List.filter_filter]
      refine List.filter_congr fun x _ => ?_
      rw [← decide_not, ← Bool.decide_and]
      exact decide_eq_decide.2 (by omega)
    have hsplit := List.filter_append_perm (fun x => decide (f x < n)) (xs.filter fun x => f x < n + 1)
    rw [hbelow, hlast] at hsplit
    exact (ih.append_right _).trans hsplit

def TypedIndex.Comprises (whole : TypedIndex) (parts : List TypedIndex) : Prop :=
  ∃ indexes, indexes.map (TypedIndex.mk whole.idType whole.valueType) = parts ∧ whole.index.Comprises indexes

structure LoadedIndex.Comprises (whole : LoadedIndex) (parts : List LoadedIndex) : Prop where
  description : ∀ part ∈ parts, part.description = whole.description
  files : whole.files.Perm (parts.flatMap LoadedIndex.files)
  index : whole.index.Comprises (parts.map LoadedIndex.index)

/-- Whether catalogs have the names of a catalog and each of its indexes holds what theirs of that name hold. -/
structure Catalog.Comprises (whole : Catalog) (parts : List Catalog) : Prop where
  names : ∀ part ∈ parts, part.entries.map Prod.fst = whole.entries.map Prod.fst
  indexes : ∀ name loaded, whole.get? name = some loaded →
    ∃ others, parts.map (fun part => part.get? name) = others.map some ∧ loaded.Comprises others

namespace Catalog

def numbered? : String × FileTree → Option (Nat × String × List UInt8)
  | (name, .file bytes) => (partNumber? name).map fun part => (part, name, bytes)
  | (_, .directory _) => none

theorem partFiles_eq (config : ShardConfig) (entries : List (String × FileTree)) :
    partFiles config entries =
      ((entries.filterMap numbered?).filter fun file => config.owns file.1).map Prod.snd := by
  rw [List.filter_filterMap, List.map_filterMap]
  refine List.filterMap_congr fun entry _ => ?_
  obtain ⟨name, tree⟩ := entry
  cases tree with
  | directory entries => cases hpart : partNumber? name <;> simp [numbered?, hpart]
  | file bytes =>
    cases hpart : partNumber? name with
    | none => simp [numbered?, hpart]
    | some part => cases howns : config.owns part <;> simp [numbered?, hpart, howns]

theorem mem_partFiles_iff {config : ShardConfig} {entries : List (String × FileTree)} {name : String}
    {bytes : List UInt8} : (name, bytes) ∈ partFiles config entries ↔
      ∃ part, partNumber? name = some part ∧ (name, .file bytes) ∈ entries ∧ config.owns part = true := by
  simp only [partFiles, List.mem_filterMap]
  constructor
  · rintro ⟨⟨other, tree⟩, hmem, hkept⟩
    cases hpart : partNumber? other with
    | none => simp [hpart] at hkept
    | some part =>
      cases tree with
      | directory entries => simp [hpart] at hkept
      | file found =>
        simp only [hpart, Option.ite_none_right_eq_some, Option.some.injEq, Prod.mk.injEq] at hkept
        obtain ⟨howns, rfl, rfl⟩ := hkept
        exact ⟨part, hpart, hmem, howns⟩
  · rintro ⟨part, hpart, hmem, howns⟩
    exact ⟨(name, .file bytes), hmem, by simp [hpart, howns]⟩

section Shards

variable {shards : Nat} (parallel : Bool) (parallels : Nat → Bool)

theorem exists_unique_shard (hshards : 0 < shards) {entries : List (String × FileTree)} {name : String}
    {bytes : List UInt8} (hmem : (name, .file bytes) ∈ entries) (hpart : (partNumber? name).isSome = true) :
    ∃! shard, shard < shards ∧ (name, bytes) ∈ partFiles ⟨shard, shards, parallels shard⟩ entries := by
  obtain ⟨part, hpart⟩ := Option.isSome_iff_exists.1 hpart
  refine ⟨part % shards, ⟨Nat.mod_lt _ hshards, ?_⟩, ?_⟩
  · exact mem_partFiles_iff.2 ⟨part, hpart, hmem, by simp [ShardConfig.owns]⟩
  · rintro shard ⟨-, hfile⟩
    obtain ⟨other, hother, -, howns⟩ := mem_partFiles_iff.1 hfile
    obtain rfl := Option.some.inj (hpart.symm.trans hother)
    exact (of_decide_eq_true howns).symm

theorem perm_partFiles (hshards : 0 < shards) (entries : List (String × FileTree)) :
    (partFiles ⟨0, 1, parallel⟩ entries).Perm
      ((List.range shards).flatMap fun shard => partFiles ⟨shard, shards, parallels shard⟩ entries) := by
  simp only [partFiles_eq]
  rw [← List.map_flatMap]
  refine List.Perm.map _ ?_
  have hall : (entries.filterMap numbered?).filter (fun file => file.1 % shards < shards) =
      entries.filterMap numbered? := List.filter_eq_self.2 fun _ _ => decide_eq_true (Nat.mod_lt _ hshards)
  have hsingle : (entries.filterMap numbered?).filter
      (fun file => (⟨0, 1, parallel⟩ : ShardConfig).owns file.1) = entries.filterMap numbered? :=
    List.filter_eq_self.2 fun _ _ => decide_eq_true (Nat.mod_one _)
  rw [hsingle]
  have hsorted := perm_flatMap_filter (fun file : Nat × String × List UInt8 => file.1 % shards)
    (entries.filterMap numbered?) shards
  rw [hall] at hsorted
  exact hsorted.symm

end Shards

structure Describes (folder : IndexFolder) (d : Description) (s : IdType) (t : ValueType) : Prop where
  decoded : Description.decode folder.name folder.description = .ok d
  idType : IdType.ofDataType? d.idType = some s
  valueType : ValueType.ofDataType? d.valueType = some t

theorem Describes.unique {folder : IndexFolder} {d d' : Description} {s s' : IdType} {t t' : ValueType}
    (h : Describes folder d s t) (h' : Describes folder d' s' t') : d = d' ∧ s = s' ∧ t = t' := by
  obtain rfl := Except.ok.inj (h.decoded.symm.trans h'.decoded)
  refine ⟨rfl, Option.some.inj (h.idType.symm.trans h'.idType), ?_⟩
  exact Option.some.inj (h.valueType.symm.trans h'.valueType)

section Folder

variable {config : ShardConfig} {operation : Nat} {folder : IndexFolder} {d : Description} {s : IdType}
  {t : ValueType}

abbrev readPart (d : Description) (s : IdType) (t : ValueType) (name : String) (operation : Nat)
    (bytes : List UInt8) : Except StoreError (Index s.Carrier t.Carrier) :=
  Index.deserialize d.kind name operation bytes

def readParts (config : ShardConfig) (d : Description) (s : IdType) (t : ValueType) (operation : Nat)
    (folder : IndexFolder) : List (Index s.Carrier t.Carrier) :=
  ((partFiles config folder.entries).map Prod.snd).filterMap fun bytes =>
    (readPart d s t folder.name operation bytes).toOption

theorem exists_describes {loaded : LoadedIndex} (h : loadFolder config operation folder = .ok loaded) :
    ∃ d s t, Describes folder d s t := by
  obtain ⟨d, hd, h⟩ := exists_of_bind_eq_ok h
  obtain ⟨index, hindex, -⟩ := exists_of_bind_eq_ok h
  unfold TypedIndex.ofParts at hindex
  cases hs : IdType.ofDataType? d.idType with
  | none => simp [hs] at hindex
  | some s =>
    cases ht : ValueType.ofDataType? d.valueType with
    | none => simp [hs, ht] at hindex
    | some t => exact ⟨d, s, t, hd, hs, ht⟩

theorem loadFolder_eq_ok_iff (h : Describes folder d s t) {loaded : LoadedIndex} :
    loadFolder config operation folder = .ok loaded ↔ ∃ parts index,
      ((partFiles config folder.entries).map Prod.snd).mapM (readPart d s t folder.name operation) = .ok parts ∧
        Index.ofParts d.kind folder.name operation parts = .ok index ∧
        loaded = ⟨d, ⟨s, t, index⟩, (partFiles config folder.entries).map Prod.fst⟩ := by
  unfold loadFolder
  rw [h.decoded]
  show (TypedIndex.ofParts folder.name operation d _ >>= _) = _ ↔ _
  unfold TypedIndex.ofParts
  simp only [h.idType, h.valueType]
  constructor
  · intro hload
    obtain ⟨typed, htyped, hload⟩ := exists_of_bind_eq_ok hload
    obtain ⟨parts, hparts, htyped⟩ := exists_of_bind_eq_ok htyped
    obtain ⟨index, hindex, htyped⟩ := exists_of_bind_eq_ok htyped
    obtain rfl := Except.ok.inj htyped
    exact ⟨parts, index, hparts, hindex, (Except.ok.inj hload).symm⟩
  · rintro ⟨parts, index, hparts, hindex, rfl⟩
    rw [hparts]
    show (Index.ofParts d.kind folder.name operation parts >>= _) >>= _ = _
    rw [hindex]
    rfl

theorem exists_ofParts_of_read {contents : List (List UInt8)} {parts : List (Index s.Carrier t.Carrier)}
    (h : contents.mapM (readPart d s t folder.name operation) = .ok parts) :
    ∃ index, Index.ofParts d.kind folder.name operation parts = .ok index ∧ index.kind = d.kind ∧
      index.name = folder.name ∧ index.Comprises parts := by
  refine Index.exists_ofParts fun part hpart => ?_
  rw [eq_filterMap_of_mapM h] at hpart
  obtain ⟨bytes, -, hread⟩ := List.mem_filterMap.1 hpart
  exact ⟨bytes, eq_ok_of_toOption hread⟩

theorem exists_loadFolder_iff : (∃ loaded, loadFolder config operation folder = .ok loaded) ↔
    ∃ d s t, Describes folder d s t ∧ ∀ file ∈ partFiles config folder.entries,
      ∃ part, readPart d s t folder.name operation file.2 = .ok part := by
  constructor
  · rintro ⟨loaded, hload⟩
    obtain ⟨d, s, t, hdescribes⟩ := exists_describes hload
    obtain ⟨parts, index, hparts, -, -⟩ := (loadFolder_eq_ok_iff hdescribes).1 hload
    have hread := exists_mapM_iff.1 ⟨parts, hparts⟩
    exact ⟨d, s, t, hdescribes, fun file hfile => hread file.2 (List.mem_map_of_mem hfile)⟩
  · rintro ⟨d, s, t, hdescribes, hread⟩
    obtain ⟨parts, hparts⟩ := exists_mapM_iff.2 (List.forall_mem_map.2 hread)
    obtain ⟨index, hindex, -⟩ := exists_ofParts_of_read hparts
    exact ⟨_, (loadFolder_eq_ok_iff hdescribes).2 ⟨parts, index, hparts, hindex, rfl⟩⟩

theorem exists_of_loadFolder (h : Describes folder d s t) {loaded : LoadedIndex}
    (hload : loadFolder config operation folder = .ok loaded) : ∃ index,
      loaded = ⟨d, ⟨s, t, index⟩, (partFiles config folder.entries).map Prod.fst⟩ ∧ index.kind = d.kind ∧
        index.name = folder.name ∧ index.Comprises (readParts config d s t operation folder) := by
  obtain ⟨parts, index, hparts, hindex, rfl⟩ := (loadFolder_eq_ok_iff h).1 hload
  obtain ⟨made, hmade, hkind, hname, hcomprises⟩ := exists_ofParts_of_read hparts
  obtain rfl := Except.ok.inj (hindex.symm.trans hmade)
  rw [eq_filterMap_of_mapM hparts] at hcomprises
  exact ⟨index, rfl, hkind, hname, hcomprises⟩

theorem perm_readParts {shards : Nat} (parallel : Bool) (parallels : Nat → Bool) (hshards : 0 < shards) :
    (readParts ⟨0, 1, parallel⟩ d s t operation folder).Perm ((List.range shards).flatMap fun shard =>
      readParts ⟨shard, shards, parallels shard⟩ d s t operation folder) := by
  unfold readParts
  rw [← List.filterMap_flatMap, ← List.map_flatMap]
  exact ((perm_partFiles parallel parallels hshards folder.entries).map Prod.snd).filterMap _

end Folder

section Load

variable {shards : Nat} {parallel : Bool} (parallels : Nat → Bool) {operation : Nat} {folder : IndexFolder}

theorem exists_loadFolder_iff_forall (hshards : 0 < shards) :
    (∃ loaded, loadFolder ⟨0, 1, parallel⟩ operation folder = .ok loaded) ↔
      ∀ shard < shards, ∃ part, loadFolder ⟨shard, shards, parallels shard⟩ operation folder = .ok part := by
  have hfiles := perm_partFiles parallel parallels hshards folder.entries
  simp only [exists_loadFolder_iff]
  constructor
  · rintro ⟨d, s, t, hdescribes, hread⟩ shard hshard
    refine ⟨d, s, t, hdescribes, fun file hfile => hread file (hfiles.mem_iff.2 ?_)⟩
    exact List.mem_flatMap.2 ⟨shard, List.mem_range.2 hshard, hfile⟩
  · intro hall
    -- every shard reads the description, also one that owns no file
    obtain ⟨d, s, t, hdescribes, -⟩ := hall 0 hshards
    refine ⟨d, s, t, hdescribes, fun file hfile => ?_⟩
    obtain ⟨shard, hshard, hfile⟩ := List.mem_flatMap.1 (hfiles.mem_iff.1 hfile)
    obtain ⟨d', s', t', hdescribes', hread⟩ := hall shard (List.mem_range.1 hshard)
    obtain ⟨rfl, rfl, rfl⟩ := hdescribes.unique hdescribes'
    exact hread file hfile

theorem loadFolder_comprises (hshards : 0 < shards) {whole : LoadedIndex} {parts : Nat → LoadedIndex}
    (hwhole : loadFolder ⟨0, 1, parallel⟩ operation folder = .ok whole)
    (hparts : ∀ shard < shards,
      loadFolder ⟨shard, shards, parallels shard⟩ operation folder = .ok (parts shard)) :
    whole.Comprises ((List.range shards).map parts) := by
  obtain ⟨d, s, t, hdescribes⟩ := exists_describes hwhole
  obtain ⟨index, rfl, hkind, hname, hcomprises⟩ := exists_of_loadFolder hdescribes hwhole
  have : Nonempty (Index s.Carrier t.Carrier) := ⟨index⟩ -- for what is chosen beyond the last shard
  choose! indexes hindexes using fun shard (hshard : shard < shards) =>
    exists_of_loadFolder hdescribes (hparts shard hshard)
  rw [List.map_congr_left fun shard hshard => (hindexes shard (List.mem_range.1 hshard)).1]
  refine ⟨List.forall_mem_map.2 fun _ _ => rfl, ?_, (List.range shards).map indexes, ?_, ?_⟩
  · rw [List.flatMap_map, ← List.map_flatMap]
    exact (perm_partFiles parallel parallels hshards folder.entries).map Prod.fst
  · simp only [List.map_map, Function.comp_def]
  · -- the groups are what each shard can read; all of them in a row are the parts of the single one
    refine hcomprises.regroup (perm_readParts parallel parallels hshards) ?_ ?_
    · refine List.forall_mem_map.2 fun shard hshard => ?_
      obtain ⟨-, hpartKind, hpartName, -⟩ := hindexes shard (List.mem_range.1 hshard)
      exact ⟨hpartKind.trans hkind.symm, hpartName.trans hname.symm⟩
    · rw [List.forall₂_map_left_iff, List.forall₂_map_right_iff, List.forall₂_same]
      exact fun shard hshard => (hindexes shard (List.mem_range.1 hshard)).2.2.2

def loadEntry (config : ShardConfig) (numbered : IndexFolder × Nat) : Except StoreError (String × LoadedIndex) := do
  return (numbered.1.name, ← loadFolder config numbered.2 numbered.1)

theorem loadEntry_eq_ok_iff {config : ShardConfig} {numbered : IndexFolder × Nat}
    {entry : String × LoadedIndex} : loadEntry config numbered = .ok entry ↔
      entry.1 = numbered.1.name ∧ loadFolder config numbered.2 numbered.1 = .ok entry.2 := by
  unfold loadEntry
  constructor
  · intro h
    obtain ⟨loaded, hload, h⟩ := exists_of_bind_eq_ok h
    obtain rfl := Except.ok.inj h
    exact ⟨rfl, hload⟩
  · rintro ⟨hname, hload⟩
    rw [hload, ← hname]
    rfl

def folders (entries : List (String × FileTree)) : List (IndexFolder × Nat) := (entries.filterMap folder?).zipIdx

theorem load_eq_ok_iff {files : FileSystem} {root : String} {config : ShardConfig}
    (hconfig : config.check = .ok ()) {catalog : Catalog} : load files root config = .ok catalog ↔
      ∃ entries, files.list root = .ok entries ∧
        (folders entries).mapM (loadEntry config) = .ok catalog.entries := by
  unfold load
  rw [hconfig]
  show ((files.list root).mapError _ >>= _) = _ ↔ _
  cases files.list root with
  | error fault => exact iff_of_false nofun nofun
  | ok entries =>
    show ((folders entries).mapM (loadEntry config) >>= _) = _ ↔ _
    constructor
    · intro h
      obtain ⟨loaded, hloaded, h⟩ := exists_of_bind_eq_ok h
      obtain rfl := Except.ok.inj h
      exact ⟨entries, rfl, hloaded⟩
    · rintro ⟨listed, hlisted, hloaded⟩
      obtain rfl := Except.ok.inj hlisted
      rw [hloaded]
      rfl

theorem get?_of_loaded {config : ShardConfig} {numbered : List (IndexFolder × Nat)}
    {loaded : List (String × LoadedIndex)} (h : numbered.mapM (loadEntry config) = .ok loaded) (name : String) :
    get? ⟨loaded⟩ name = (numbered.find? fun f => f.1.name = name).bind fun f =>
      (loadFolder config f.2 f.1).toOption := by
  rw [mapM_eq_ok_iff] at h
  unfold get?
  induction h with
  | nil => rfl
  | @cons folder entry _ _ hentry _ ih =>
    obtain ⟨found, index⟩ := entry
    obtain ⟨rfl, hload⟩ := loadEntry_eq_ok_iff.1 hentry
    by_cases hname : folder.1.name = name
    · simp only [List.find?_cons, hname, decide_true, Option.bind_some, hload]
      rfl
    · simp only [List.find?_cons, hname, decide_false]
      exact ih

theorem check_shard {shard : Nat} (hshard : shard < shards) (parallel : Bool) :
    (⟨shard, shards, parallel⟩ : ShardConfig).check = .ok () := by
  unfold ShardConfig.check
  rw [if_neg (Nat.ne_zero_of_lt hshard), if_neg (Nat.not_le_of_lt hshard)]

theorem exists_load_iff {files : FileSystem} {root : String} {config : ShardConfig}
    (hconfig : config.check = .ok ()) : (∃ catalog, load files root config = .ok catalog) ↔
      ∃ entries, files.list root = .ok entries ∧
        ∀ numbered ∈ folders entries, ∃ loaded, loadFolder config numbered.2 numbered.1 = .ok loaded := by
  have hentry : ∀ numbered, (∃ entry, loadEntry config numbered = .ok entry) ↔
      ∃ loaded, loadFolder config numbered.2 numbered.1 = .ok loaded := by
    intro numbered
    simp only [loadEntry_eq_ok_iff]
    exact ⟨fun ⟨entry, h⟩ => ⟨entry.2, h.2⟩, fun ⟨loaded, h⟩ => ⟨(numbered.1.name, loaded), rfl, h⟩⟩
  simp only [load_eq_ok_iff hconfig, ← hentry, ← exists_mapM_iff]
  constructor
  · rintro ⟨catalog, entries, hlist, hload⟩
    exact ⟨entries, hlist, catalog.entries, hload⟩
  · rintro ⟨entries, hlist, loaded, hload⟩
    exact ⟨⟨loaded⟩, entries, hlist, hload⟩

theorem exists_load_iff_forall (files : FileSystem) (root : String) (hshards : 0 < shards) :
    (∃ whole, load files root ⟨0, 1, parallel⟩ = .ok whole) ↔
      ∀ shard < shards, ∃ part, load files root ⟨shard, shards, parallels shard⟩ = .ok part := by
  rw [exists_load_iff (check_shard Nat.one_pos parallel)]
  constructor
  · rintro ⟨entries, hlist, hload⟩ shard hshard
    refine (exists_load_iff (check_shard hshard _)).2 ⟨entries, hlist, fun numbered hnumbered => ?_⟩
    exact (exists_loadFolder_iff_forall parallels hshards).1 (hload numbered hnumbered) shard hshard
  · intro hall
    obtain ⟨entries, hlist, -⟩ := (exists_load_iff (check_shard hshards _)).1 (hall 0 hshards)
    refine ⟨entries, hlist, fun numbered hnumbered => ?_⟩
    refine (exists_loadFolder_iff_forall parallels hshards).2 fun shard hshard => ?_
    obtain ⟨listed, hlisted, hload⟩ := (exists_load_iff (check_shard hshard _)).1 (hall shard hshard)
    obtain rfl := Except.ok.inj (hlist.symm.trans hlisted)
    exact hload numbered hnumbered

theorem names_of_loaded {config : ShardConfig} {numbered : List (IndexFolder × Nat)}
    {loaded : List (String × LoadedIndex)} (h : numbered.mapM (loadEntry config) = .ok loaded) :
    loaded.map Prod.fst = numbered.map fun f => f.1.name := by
  rw [mapM_eq_ok_iff] at h
  induction h with
  | nil => rfl
  | cons hentry _ ih => rw [List.map_cons, List.map_cons, ih, (loadEntry_eq_ok_iff.1 hentry).1]

theorem load_comprises {files : FileSystem} {root : String} (hshards : 0 < shards) {whole : Catalog}
    {parts : Nat → Catalog} (hwhole : load files root ⟨0, 1, parallel⟩ = .ok whole)
    (hparts : ∀ shard < shards, load files root ⟨shard, shards, parallels shard⟩ = .ok (parts shard)) :
    whole.Comprises ((List.range shards).map parts) := by
  obtain ⟨entries, hlist, hwhole⟩ := (load_eq_ok_iff (check_shard Nat.one_pos parallel)).1 hwhole
  have hshard : ∀ shard < shards,
      (folders entries).mapM (loadEntry ⟨shard, shards, parallels shard⟩) = .ok (parts shard).entries := by
    intro shard hshard
    obtain ⟨listed, hlisted, hload⟩ := (load_eq_ok_iff (check_shard hshard _)).1 (hparts shard hshard)
    obtain rfl := Except.ok.inj (hlist.symm.trans hlisted)
    exact hload
  refine ⟨List.forall_mem_map.2 fun shard hmem => ?_, fun name loaded hget => ?_⟩
  · exact (names_of_loaded (hshard shard (List.mem_range.1 hmem))).trans (names_of_loaded hwhole).symm
  · rw [show whole.get? name = _ from get?_of_loaded hwhole name] at hget
    obtain ⟨folder, hfolder, hload⟩ := Option.bind_eq_some_iff.1 hget
    have hload := eq_ok_of_toOption hload
    have : Nonempty LoadedIndex := ⟨loaded⟩
    choose! others hothers using (exists_loadFolder_iff_forall parallels hshards).1 ⟨loaded, hload⟩
    refine ⟨(List.range shards).map others, ?_, loadFolder_comprises parallels hshards hload hothers⟩
    rw [List.map_map, List.map_map]
    refine List.map_congr_left fun shard hmem => ?_
    have hshardIndex := hothers shard (List.mem_range.1 hmem)
    refine (get?_of_loaded (hshard shard (List.mem_range.1 hmem)) name).trans ?_
    rw [hfolder, Option.bind_some, hshardIndex]
    rfl

end Load

/-- Each numbered file is read by exactly one shard; a single shard can load a directory exactly when every shard of
it can; and what it loads is, index by index, what the shards load together. -/
theorem load_partitioned (files : FileSystem) (root : String) {shards : Nat} (hshards : 0 < shards)
    (parallel : Bool) (parallels : Nat → Bool) :
    (∀ (entries : List (String × FileTree)) (name : String) (bytes : List UInt8),
      (name, .file bytes) ∈ entries → (partNumber? name).isSome = true →
        ∃! shard, shard < shards ∧ (name, bytes) ∈ partFiles ⟨shard, shards, parallels shard⟩ entries) ∧
      ((∃ whole, load files root ⟨0, 1, parallel⟩ = .ok whole) ↔
        ∀ shard < shards, ∃ part, load files root ⟨shard, shards, parallels shard⟩ = .ok part) ∧
      ∀ (whole : Catalog) (parts : Nat → Catalog), load files root ⟨0, 1, parallel⟩ = .ok whole →
        (∀ shard < shards, load files root ⟨shard, shards, parallels shard⟩ = .ok (parts shard)) →
          whole.Comprises ((List.range shards).map parts) :=
  ⟨fun _ _ _ hmem hpart => exists_unique_shard parallels hshards hmem hpart,
    exists_load_iff_forall parallels files root hshards,
    fun _ _ hwhole hparts => load_comprises parallels hshards hwhole hparts⟩

def labelsEntries : List (String × FileTree) := [
  ("meta", .file [0, 0, 0, 0, 6, 0, 0, 0, 6, 0, 0, 0]),
  ("part_0.dat", .file [7, 0, 0, 0, 1, 0, 0, 0, 1, 0, 0, 0, 1, 0, 0, 0, 0, 0, 0, 0]),
  ("part_1.dat", .file [7, 0, 0, 0, 1, 0, 0, 0, 2, 0, 0, 0, 1, 0, 0, 0, 0, 0, 0, 0])]

def labelsTree : FileSystem where
  root := .directory [("labels", .directory labelsEntries)]

theorem load_partitioned_labels :
    (∃! shard, shard < 2 ∧ ("part_1.dat", [7, 0, 0, 0, 1, 0, 0, 0, 2, 0, 0, 0, 1, 0, 0, 0, 0, 0, 0, 0]) ∈
      partFiles ⟨shard, 2, false⟩ labelsEntries) ∧
    ∃ (whole : Catalog) (parts : Nat → Catalog), load labelsTree "/" ⟨0, 1, true⟩ = .ok whole ∧
      whole.entries.map (fun entry => entry.2.files) = [["part_0.dat", "part_1.dat"]] ∧
      (∀ shard < 2, load labelsTree "/" ⟨shard, 2, false⟩ = .ok (parts shard)) ∧
      whole.Comprises ((List.range 2).map parts) := by
  obtain ⟨hselected, hload, hholds⟩ := load_partitioned labelsTree "/" Nat.two_pos true fun _ => false
  refine ⟨hselected labelsEntries _ _ (by simp [labelsEntries]) (by decide), ?_⟩
  have hfiles : (load labelsTree "/" ⟨0, 1, true⟩).toOption.map
      (fun c => c.entries.map fun entry => entry.2.files) = some [["part_0.dat", "part_1.dat"]] := by cbv
  obtain ⟨whole, hwhole, hread⟩ := Option.map_eq_some_iff.1 hfiles
  have hwhole := eq_ok_of_toOption hwhole
  have : Nonempty Catalog := ⟨whole⟩
  choose! parts hparts using hload.1 ⟨whole, hwhole⟩
  exact ⟨whole, parts, hwhole, hread, hparts, hholds whole parts hwhole hparts⟩

end Catalog

end WeightedStore
