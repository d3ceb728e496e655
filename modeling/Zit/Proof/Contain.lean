import Zit.Lib.Lexical
import Zit.Proof.Canonical

/-!
# Where a torrent writes

The name of a torrent and the paths of its files are joined from strings of the `.torrent` file as
they are. `Names` says which strings these are, `Contained` that the joined paths lie inside the
data directory and the files inside the directory of the torrent. They do exactly when the strings
lead back to where they start from (`contained_iff`).
-/

set_option autoImplicit false

namespace Zit

open Lib Lib.Path

namespace Torrent

/-- The path list of one file. -/
def PathList (e : Element) (strs : List Bytes) : Prop :=
  ∃ dict, e = .dict dict ∧ dict.lookup (ascii "path".toList) = some (.list (strs.map .str))

/-- The strings of the info dictionary that become names: the one of the torrent, and a list for
each file. -/
structure Names (content : Bytes) (n : Bytes) (paths : List (List Bytes)) : Prop where
  read : ∃ root info, Bencode.decode content = .ok (.dict root) ∧
    root.lookup (ascii "info".toList) = some (.dict info) ∧
    info.lookup (ascii "name".toList) = some (.str n) ∧
    ((info.lookup (ascii "files".toList) = none ∧ paths = []) ∨
      ∃ files, info.lookup (ascii "files".toList) = some (.list files) ∧
        List.Forall₂ PathList files paths)

/-- The normal form of a path. -/
abbrev lexical (p : Path) : Lexical := Lexical.here.walk p

/-- The name is inside the data directory, and the files are inside the name. -/
structure Contained (dataDir : Path) (t : Torrent) : Prop where
  name : (lexical t.name).Within (lexical dataDir)
  files : ∀ fi ∈ t.files, (lexical (join t.name fi.path)).Within (lexical t.name)

theorem Contained.inside {dataDir : Path} {t : Torrent} (h : Contained dataDir t) :
    ∀ fi ∈ t.files, (lexical (join t.name fi.path)).Within (lexical dataDir) :=
  fun fi hfi => (h.files fi hfi).trans h.name

/-! ## Reading the names -/

theorem toList_ok {e : Element} {v : List Element} (h : e.toList = .ok v) : e = .list v := by
  cases e with
  | list v' => rw [Except.ok.inj h]
  | _ => cases h

theorem dictGet_ok {α : Type} {dict : List (Bytes × Element)} {key : String}
    {conv : Element → Except Exn α} {dflt r : α} (h : dictGet dict key conv dflt = .ok r) :
    dict.lookup (ascii key.toList) = none ∧ r = dflt ∨
      ∃ e, dict.lookup (ascii key.toList) = some e ∧ conv e = .ok r := by
  unfold dictGet dictHas at h
  cases hl : dict.lookup (ascii key.toList) with
  | none =>
    rw [hl] at h
    exact .inl ⟨rfl, (Except.ok.inj h).symm⟩
  | some e =>
    rw [hl] at h
    obtain ⟨e', he, h⟩ := bind_eq_ok.1 h
    rw [dictAt_ok he] at hl
    exact .inr ⟨e, rfl, by rwa [← Option.some.inj hl]⟩

theorem foldlM_join {a p : Path} {es : List Element}
    (h : es.foldlM (fun a b => (join a ·) <$> b.toStr) a = .ok p) :
    ∃ strs : List Bytes, es = strs.map .str ∧ p = strs.foldl join a := by
  induction es generalizing a with
  | nil => exact ⟨[], rfl, (pure_eq_ok.1 h).symm⟩
  | cons e es ih =>
    rw [List.foldlM_cons] at h
    obtain ⟨a', ha, h⟩ := bind_eq_ok.1 h
    obtain ⟨s, hs, rfl⟩ := map_eq_ok.1 ha
    obtain ⟨strs, rfl, rfl⟩ := ih h
    obtain rfl := toStr_ok hs
    exact ⟨s :: strs, rfl, rfl⟩

theorem beDictToFileInfo_ok {e : Element} {fi : FileInfo} (h : beDictToFileInfo e = .ok fi) :
    ∃ strs, PathList e strs ∧ fi.path = strs.foldl join [] := by
  unfold beDictToFileInfo at h
  obtain ⟨dict, hd, h⟩ := bind_eq_ok.1 h
  obtain ⟨_, -, h⟩ := bind_eq_ok.1 h
  obtain ⟨pe, hpe, h⟩ := bind_eq_ok.1 h
  obtain ⟨pathList, hlist, h⟩ := bind_eq_ok.1 h
  obtain ⟨path, hpath, h⟩ := bind_eq_ok.1 h
  iterate 2 obtain ⟨_, -, h⟩ := bind_eq_ok.1 h
  obtain rfl := pure_eq_ok.1 h
  obtain rfl := toDict_ok hd
  obtain rfl := toList_ok hlist
  obtain ⟨strs, rfl, hp⟩ := foldlM_join hpath
  exact ⟨strs, ⟨dict, rfl, dictAt_ok hpe⟩, hp⟩

theorem mode_files {info : List (Bytes × Element)} {mLength : Int} {files : List FileInfo}
    (h : mode info = .ok (mLength, files)) :
    dictGet info "files" (fun e => do (← e.toList).mapM beDictToFileInfo) [] = .ok files := by
  unfold mode at h
  obtain ⟨_, -, h⟩ := bind_eq_ok.1 h
  split at h
  · cases h
  · obtain ⟨fs, hfs, h⟩ := bind_eq_ok.1 h
    split at h
    · cases h
    · have he := pure_eq_ok.1 h
      simp only [Prod.mk.injEq] at he
      rw [hfs, he.2]

theorem pathLists_ok {es : List Element} {files : List FileInfo}
    (h : List.Forall₂ (fun e fi => beDictToFileInfo e = .ok fi) es files) :
    ∃ paths, List.Forall₂ PathList es paths ∧
      List.Forall₂ (fun fi strs => fi.path = strs.foldl join []) files paths := by
  induction h with
  | nil => exact ⟨[], .nil, .nil⟩
  | cons he _ ih =>
    obtain ⟨strs, hs, hp⟩ := beDictToFileInfo_ok he
    obtain ⟨paths, hpaths, hfiles⟩ := ih
    exact ⟨strs :: paths, .cons hs hpaths, .cons hp hfiles⟩

/-- The names of an accepted file. -/
theorem names_of_ofContent {sha1 : Bytes → Sha1} {config : Config} {dataDir : Path}
    {content : Bytes} {t : Torrent} (h : ofContent sha1 config dataDir content = .ok t) :
    ∃ n paths, Names content n paths ∧ t.name = join dataDir n ∧
      List.Forall₂ (fun fi strs => fi.path = strs.foldl join []) t.files paths := by
  obtain ⟨root, info, hr⟩ := ofContent_ok h
  obtain ⟨n, hn, hname⟩ := hr.name
  rcases dictGet_ok (mode_files hr.mode) with ⟨hnone, hfiles⟩ | ⟨e, he, hfiles⟩
  · refine ⟨n, [], ⟨root, info, hr.decoded, hr.infoAt, hn, .inl ⟨hnone, rfl⟩⟩, hname, ?_⟩
    rw [hfiles]
    exact .nil
  · obtain ⟨es, hes, hmap⟩ := bind_eq_ok.1 hfiles
    obtain rfl := toList_ok hes
    obtain ⟨paths, hpaths, hjoin⟩ := pathLists_ok (mapM_eq_ok hmap)
    exact ⟨n, paths, ⟨root, info, hr.decoded, hr.infoAt, hn, .inr ⟨es, he, hpaths⟩⟩, hname, hjoin⟩

/-! ## Containment -/

theorem within_join (a : Path) (strs : List Path) (p : Path) (hp : p = strs.foldl join []) :
    (lexical (join a p)).Within (lexical a) ↔ (lexical a).Returns (.joined strs) := by
  rw [lexical, Lexical.walk_join, hp, Lexical.walk_foldl_join, Lexical.walk_nil,
    Lexical.foldl_walk, Lexical.within_iff]

theorem within_files (a : Path) {files : List FileInfo} {paths : List (List Bytes)}
    (h : List.Forall₂ (fun fi strs => fi.path = strs.foldl join []) files paths) :
    (∀ fi ∈ files, (lexical (join a fi.path)).Within (lexical a)) ↔
      ∀ strs ∈ paths, (lexical a).Returns (.joined strs) := by
  induction h with
  | nil => simp
  | cons hp _ ih => rw [List.forall_mem_cons, List.forall_mem_cons, ih, within_join _ _ _ hp]

/-- The torrent stays inside exactly when the strings of its names lead back to where they start
from: the name to the data directory and each path list to the directory of the torrent. -/
theorem contained_iff {sha1 : Bytes → Sha1} {config : Config} {dataDir : Path} {content : Bytes}
    {t : Torrent} (h : ofContent sha1 config dataDir content = .ok t) :
    ∃ n paths, Names content n paths ∧ (Contained dataDir t ↔
      (Lexical.joined [dataDir]).Returns (.joined [n]) ∧
        ∀ strs ∈ paths, (Lexical.joined [dataDir, n]).Returns (.joined strs)) := by
  obtain ⟨n, paths, hnames, hname, hfiles⟩ := names_of_ofContent h
  refine ⟨n, paths, hnames, ?_⟩
  have hn : (lexical t.name).Within (lexical dataDir) ↔
      (Lexical.joined [dataDir]).Returns (.joined [n]) := by
    rw [hname]
    exact within_join dataDir [n] n (join_empty n).symm
  have hbase : lexical t.name = .joined [dataDir, n] := by
    rw [hname, lexical, Lexical.walk_join]
    rfl
  have hf := within_files t.name hfiles
  rw [hbase] at hf
  constructor
  · intro hc
    exact ⟨hn.1 hc.name, hf.1 (hbase ▸ hc.files)⟩
  · intro hc
    exact ⟨hn.2 hc.1, hbase ▸ hf.2 hc.2⟩

/-- A `.torrent` file of one file with this path list. -/
def pathFile (strs : List Bytes) : Bytes :=
  ascii "d8:announce1:a4:infod5:filesld6:lengthi1e4:path".toList ++
    (Element.list (strs.map .str)).encode ++
    ascii "ee4:name1:n12:piece lengthi1e6:pieces20:".toList ++ List.replicate 20 0 ++
    ascii "ee".toList

/-- What the constructor makes of it in the data directory `dl`. -/
def ofPath (strs : List Bytes) : Except Exn Torrent :=
  ofContent (fun _ => .zero) ⟨6881, 6881, 10, true⟩ (ascii "dl".toList)
    (pathFile strs)

theorem contained_iff_plain : ∃ t n paths, ofPath [ascii "a".toList, ascii "b".toList] = .ok t ∧
    Names (pathFile [ascii "a".toList, ascii "b".toList]) n paths ∧
    Contained (ascii "dl".toList) t ∧ (Lexical.joined [ascii "dl".toList]).Returns (.joined [n]) ∧
      ∀ strs ∈ paths, (Lexical.joined [ascii "dl".toList, n]).Returns (.joined strs) := by
  have hcheck : (ofPath [ascii "a".toList, ascii "b".toList]).map (fun t =>
      decide ((lexical t.name).Within (lexical (ascii "dl".toList)) ∧
        ∀ fi ∈ t.files, (lexical (join t.name fi.path)).Within (lexical t.name))) = .ok true := by
    decide +kernel
  obtain ⟨t, ht, hc⟩ := map_eq_ok.1 hcheck
  simp only [decide_eq_true_eq] at hc
  obtain ⟨n, paths, hn, hiff⟩ := contained_iff ht
  have hcont : Contained (ascii "dl".toList) t := ⟨hc.1, hc.2⟩
  exact ⟨t, n, paths, ht, hn, hcont, hiff.1 hcont⟩

/-- A file that goes up twice is outside the data directory. -/
theorem contained_escape : ¬∀ (sha1 : Bytes → Sha1) (config : Config) (dataDir : Path)
    (content : Bytes) (t : Torrent), ofContent sha1 config dataDir content = .ok t →
      Contained dataDir t := by
  intro hall
  have hcheck : (ofPath [ascii "..".toList, ascii "..".toList, ascii "x".toList]).map (fun t =>
      decide (∀ fi ∈ t.files, (lexical (join t.name fi.path)).Within (lexical t.name))) =
        .ok false := by
    decide +kernel
  obtain ⟨t, ht, hc⟩ := map_eq_ok.1 hcheck
  exact of_decide_eq_false hc (hall _ _ _ _ t ht).files

end Torrent

end Zit
