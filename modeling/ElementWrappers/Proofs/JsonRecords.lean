import Mathlib
import ElementWrappers.Proofs.JsonText
import ElementWrappers.Target.Json

/-!
# Records that survive JSON

What a record is written as is a plain value that decodes to the record itself,
and so does every text of that value: `Faithful.survives`. The options of a build
output are its members without the type, so that a build that lists targets among
other outputs gives back these targets, in their order: `BuildConfig.survivesJson`.
-/

namespace ElementWrappers

namespace Json

variable {α β : Type _} {d : Nat} {names : List String} {members : Members}

/-! ## Faithful encodings -/

/-- What is written is plain, and decodes to what it was written for. -/
structure Faithful (d : Nat) (encode : α → Json) (decode : Json → Option α) : Prop where
  plain : ∀ a, IsPlain d (encode a)
  decode_encode : ∀ a, decode (encode a) = some a

/-- A value decodes to `a`, and so do its texts, on one line or with one item a
line. -/
structure Survives (v : Json) (decode : Json → Option α) (a : α) : Prop where
  value : decode v = some a
  compact : ∃ w, read v.compact = .ok w ∧ decode w = some a
  pretty : ∃ w, read v.pretty = .ok w ∧ decode w = some a

theorem Faithful.survives {encode : α → Json} {decode : Json → Option α}
    (h : Faithful d encode decode) (hd : d ≤ deepest) (a : α) :
    Survives (encode a) decode a := by
  obtain ⟨hnumberless, hdepth, hdistinct⟩ := h.plain a
  have hread {layout : Layout} (hl : layout.IsBlank) :
      ∃ w, read (String.ofList (print layout 0 (encode a))) = .ok w ∧ decode w = some a := by
    refine ⟨encode a, ?_, h.decode_encode a⟩
    have hr := read_print hl hnumberless (hdepth.trans hd) (List.forall_mem_nil _)
    rwa [List.append_nil, hdistinct] at hr
  exact ⟨h.decode_encode a, hread isBlank_compact, hread isBlank_indented⟩

/-! ## Parts of a record -/

@[simp]
theorem string?_str (text : String) : (Json.str text).string? = some text := rfl

@[simp]
theorem bool?_bool (b : Bool) : (Json.bool b).bool? = some b := rfl

@[simp]
theorem optional?_ofOption (text : Option String) :
    optional? string? (ofOption text) = some text := by
  cases text <;> rfl

@[simp]
theorem alternative?_str (name : String) : (Json.str name).alternative? = some name := rfl

theorem isPlain_ofOption (text : Option String) : IsPlain d (ofOption text) := by
  cases text with
  | none => exact ⟨rfl, Nat.zero_le d, rfl⟩
  | some text => exact isPlain_str text

theorem decodeAll_eq_some_iff {decode : Json → Option α} {vs : List Json} {as : List α} :
    decodeAll decode vs = some as ↔ vs.map decode = as.map some := by
  induction vs generalizing as with
  | nil =>
    cases as with
    | nil => exact iff_of_true rfl rfl
    | cons a as => exact iff_of_false nofun nofun
  | cons v rest ih =>
    unfold decodeAll
    cases as with
    | nil =>
      refine iff_of_false ?_ nofun
      split <;> exact nofun
    | cons a as =>
      rw [List.map_cons, List.map_cons, List.cons.injEq, ← ih]
      split
      · rename_i a' as' ha has
        rw [ha, has, Option.some.injEq, Option.some.injEq, Option.some.injEq, List.cons.injEq]
      · rename_i hnone
        exact iff_of_false nofun fun h => hnone a as h.1 h.2

theorem decodeAll_map {encode : α → Json} {decode : Json → Option α}
    (h : ∀ a, decode (encode a) = some a) (as : List α) :
    decodeAll decode (as.map encode) = some as := by
  rw [decodeAll_eq_some_iff, List.map_map]
  exact List.map_congr_left fun a _ => h a

theorem decodeMembers_map {encode : α → Json} {decode : Json → Option α}
    (h : ∀ a, decode (encode a) = some a) (entries : Entries α) :
    decodeMembers decode (entries.map fun (key, a) => (key, encode a)) = some entries := by
  induction entries with
  | nil => rfl
  | cons entry rest ih => rw [List.map_cons, decodeMembers, h, ih]

theorem keys_map (encode : α → Json) (entries : Entries α) :
    Entries.keys (entries.map fun (key, a) => (key, encode a)) = entries.keys := by
  rw [Entries.keys, List.map_map]
  rfl

theorem faithful_string : Faithful 0 Json.str string? := ⟨isPlain_str, string?_str⟩

theorem Faithful.list {encode : α → Json} {decode : Json → Option α}
    (h : Faithful d encode decode) :
    Faithful (d + 1) (fun as => .arr (as.map encode)) (list? decode) where
  plain _ := .arr (List.forall_mem_map.mpr fun a _ => h.plain a)
  decode_encode := decodeAll_map h.decode_encode

/-- The entries of a table keep their order, and none is lost: their keys are
distinct. -/
theorem Faithful.table {encode : α → Json} {decode : Json → Option α}
    (h : Faithful d encode decode) :
    Faithful (d + 1) (fun t : Table α => .obj (t.entries.map fun (key, a) => (key, encode a)))
      (table? decode) where
  plain t := by
    refine .obj ?_ (List.forall_mem_map.mpr fun entry _ => h.plain entry.2)
    rw [keys_map]
    exact t.distinct
  decode_encode t := by
    rw [table?, decodeMembers_map h.decode_encode, Option.map_some]
    exact congrArg some (Table.ext_entries (Table.entries_ofList_of_nodup t.distinct))

/-! ## Records -/

theorem record?_obj (hn : members.keys.Nodup) :
    (Json.obj members).record? names = some members.get? := by
  have hu : unrepeated names members = true := by
    rw [unrepeated, List.all_eq_true]
    intro name _
    rw [decide_eq_true_iff, ← List.countP_eq_length_filter]
    exact List.nodup_iff_count_le_one.mp hn name
  rw [record?, if_pos hu]

/-- A record with all its fields. -/
theorem Faithful.record {members : α → Members} {decode : Fields → Option α}
    (hn : names.Nodup) (hk : ∀ a, (members a).keys = names)
    (hp : ∀ a, ∀ member ∈ members a, IsPlain d member.2)
    (hd : ∀ a (fields : Fields), (∀ member ∈ members a, fields member.1 = some member.2) →
      decode fields = some a) :
    Faithful (d + 1) (fun a => .obj (members a)) fun v => v.record? names >>= decode where
  plain a := .obj ((hk a).symm ▸ hn) (hp a)
  decode_encode a := by
    have hnodup : (members a).keys.Nodup := (hk a).symm ▸ hn
    rw [record?_obj hnodup]
    exact hd a _ fun member hm => Entries.get?_of_mem hnodup hm

end Json

open Json

/-! ## Components -/

theorem DocTag.faithful : Faithful 1 toJson ofJson? := by
  refine .record (by decide) (fun _ => rfl) ?_ ?_
  · simp [isPlain_str, isPlain_ofOption]
  · simp +contextual [Fields.getD]

theorem Doc.faithful : Faithful 3 toJson ofJson? := by
  refine .record (by decide) (fun _ => rfl) ?_ ?_
  · simp [isPlain_str, DocTag.faithful.list.plain]
  · simp +contextual [Fields.getD, DocTag.faithful.list.decode_encode]

theorem Property.faithful : Faithful 4 toJson ofJson? := by
  refine .record (by decide) (fun _ => rfl) ?_ ?_
  · simp [isPlain_str, isPlain_bool, Doc.faithful.plain]
  · simp +contextual [Fields.getD, Doc.faithful.decode_encode]

theorem VirtualProperty.faithful : Faithful 1 toJson ofJson? := by
  refine .record (by decide) (fun _ => rfl) ?_ ?_
  · simp [isPlain_str]
  · simp +contextual [Fields.getD]

theorem Method.faithful : Faithful 4 toJson ofJson? := by
  refine .record (by decide) (fun _ => rfl) ?_ ?_
  · simp [isPlain_str, isPlain_bool, Doc.faithful.plain]
  · simp +contextual [Fields.getD, Doc.faithful.decode_encode]

@[simp]
theorem TypeOrigin.ofText_text (origin : TypeOrigin) : ofText origin.text = origin := by
  cases origin <;> rfl

/-- A missing path or id is not written, and reads back as missing. -/
theorem TypeReference.faithful : Faithful 1 toJson ofJson? where
  plain r := by
    obtain ⟨origin, path, id⟩ := r
    refine .obj ?_ ?_
    · cases path <;> cases id <;> simp [Entries.keys, optionalMember]
    · cases path <;> cases id <;> simp [optionalMember, isPlain_str]
  decode_encode r := by
    obtain ⟨origin, path, id⟩ := r
    have hn : Entries.keys (("location", Json.str origin.text) :: optionalMember "path" path ++
        optionalMember "id" id) |>.Nodup := by
      cases path <;> cases id <;> simp [Entries.keys, optionalMember]
    rw [toJson, ofJson?, record?_obj hn]
    cases path <;> cases id <;>
      simp [Fields.get, Fields.getD, Entries.get?, optionalMember, TypeOrigin.ofJson?, optional?]

theorem PayloadType.faithful : Faithful 3 toJson ofJson? := by
  refine .record (by decide) (fun _ => rfl) ?_ ?_
  · simp [isPlain_str, TypeReference.faithful.table.plain]
  · simp +contextual [Fields.getD, TypeReference.faithful.table.decode_encode]

theorem Event.faithful : Faithful 4 toJson ofJson? := by
  refine .record (by decide) (fun _ => rfl) ?_ ?_
  · simp [isPlain_str, isPlain_bool, PayloadType.faithful.plain, Doc.faithful.plain]
  · simp +contextual [Fields.getD, PayloadType.faithful.decode_encode, Doc.faithful.decode_encode]

theorem Component.faithful : Faithful 6 toJson ofJson? := by
  refine .record (by decide) (fun _ => rfl) ?_ ?_
  · have hvirtual (c : Component) := (VirtualProperty.faithful.list.plain c.virtualProperties).mono
      (show 2 ≤ 5 by decide)
    simp [isPlain_str, isPlain_bool, Property.faithful.list.plain, hvirtual,
      Method.faithful.list.plain, Event.faithful.list.plain]
  · simp +contextual [Fields.getD, Property.faithful.list.decode_encode,
      VirtualProperty.faithful.list.decode_encode, Method.faithful.list.decode_encode,
      Event.faithful.list.decode_encode]

/-! ## Targets -/

theorem Selectors.faithful : Faithful 1 toJson ofJson? where
  plain s := by
    cases s with
    | one s => exact isPlain_str s
    | many ss => exact faithful_string.list.plain ss
  decode_encode s := by
    cases s with
    | one s => rfl
    | many ss => exact congrArg (Option.map Selectors.many) (faithful_string.list.decode_encode ss)

@[simp]
theorem AccessorKind.ofName?_name (kind : AccessorKind) : ofName? kind.name = some kind := by
  cases kind <;> rfl

@[simp]
theorem OutputType.ofName?_name (t : OutputType) : ofName? t.name = some t := by
  cases t <;> rfl

theorem AccessorConfig.faithful : Faithful 2 toJson ofJson? := by
  refine .record (by decide) (fun _ => rfl) ?_ ?_
  · simp [isPlain_str, Selectors.faithful.plain]
  · simp +contextual [Fields.get, Selectors.faithful.decode_encode]

theorem Target.faithful : Faithful 4 toJson ofJson? := by
  refine .record (by decide) (fun _ => rfl) ?_ ?_
  · have hexcluded (t : Target) := (faithful_string.list.plain t.excluded).mono
      (show 1 ≤ 3 by decide)
    simp [isPlain_str, isPlain_bool, isPlain_ofOption, hexcluded,
      AccessorConfig.faithful.list.plain]
  · simp +contextual [Fields.get, Fields.getD, Target.optionalString?,
      faithful_string.list.decode_encode, AccessorConfig.faithful.list.decode_encode]

/-! ## Build configurations -/

/-- The kind vanishes from the members, wherever it stands among them, and the other
members keep their order. -/
theorem BuildOutput.ofJson?_tagged {kind : String} {before after : Members}
    (h : "type" ∉ Entries.keys (before ++ after)) :
    ofJson? (.obj (before ++ ("type", .str kind) :: after)) = some ⟨kind, before ++ after⟩ := by
  rw [Entries.keys, List.map_append, List.mem_append, not_or] at h
  have hget : Entries.get? (before ++ ("type", Json.str kind) :: after) "type" =
      some (.str kind) := by
    rw [Entries.get?_append_of_not_mem h.1, Entries.get?, if_pos rfl]
  have hkept {members : Members} (hm : "type" ∉ members.map Prod.fst) :
      members.filter (fun m => m.1 != "type") = members := by
    refine List.filter_eq_self.mpr fun m hmem => bne_iff_ne.mpr fun he => hm ?_
    rw [← he]
    exact List.mem_map_of_mem hmem
  have hoptions : (before ++ ("type", Json.str kind) :: after).filter (fun m => m.1 != "type") =
      before ++ after := by
    rw [List.filter_append, hkept h.1, List.filter_cons_of_neg (by simp), hkept h.2]
  simp only [ofJson?, hget, hoptions]

/-- The outputs of a build, written as JSON, and the targets that are among them in
this order. A target has its kind somewhere among its members; every other output
has another kind, and any members. -/
inductive BuildOutput.Lists : List Json → List Target → Prop
  | nil : Lists [] []
  | target {t : Target} {before after : Members} {vs : List Json} {targets : List Target}
      (h : t.toJson = .obj (before ++ after)) (rest : Lists vs targets) :
      Lists (.obj (before ++ ("type", .str BuildConfig.angularKind) :: after) :: vs)
        (t :: targets)
  | other {members : Members} {kind : String} {vs : List Json} {targets : List Target}
      (h : members.get? "type" = some (.str kind)) (hk : kind ≠ BuildConfig.angularKind)
      (rest : Lists vs targets) : Lists (.obj members :: vs) targets

theorem Target.type_not_mem_keys {t : Target} {members : Members} (h : t.toJson = .obj members) :
    "type" ∉ members.keys := by
  obtain rfl := Json.obj.inj h
  exact (by decide : "type" ∉ ["componentCorePackage", "directivesProxyFile",
    "directivesArrayFile", "outputType", "customElementsDir", "excludeComponents",
    "inlineProperties", "individualComponentExport", "componentOutputDir",
    "valueAccessorConfigs", "exportSubpath", "libraryPackageJson"])

/-- Each output is read on its own, and those of the Angular kind give their targets
back. -/
theorem BuildOutput.Lists.exists_outputs {vs : List Json} {targets : List Target}
    (h : Lists vs targets) : ∃ outputs, list? ofJson? (.arr vs) = some outputs ∧
      ∀ rootDir, (BuildConfig.mk rootDir outputs).angularTargets? = some targets := by
  simp only [list?, BuildConfig.angularTargets?, decodeAll_eq_some_iff]
  induction h with
  | nil => exact ⟨[], rfl, fun _ => rfl⟩
  | @target t before after vs targets h rest ih =>
    obtain ⟨outputs, hread, htargets⟩ := ih
    refine ⟨⟨BuildConfig.angularKind, before ++ after⟩ :: outputs, ?_, fun rootDir => ?_⟩
    · rw [List.map_cons, List.map_cons, hread,
        ofJson?_tagged (Target.type_not_mem_keys h)]
    · rw [List.filter_cons_of_pos (by simp), List.map_cons, List.map_cons, List.map_cons,
        htargets rootDir, ← h, Target.faithful.decode_encode]
  | @other members kind vs targets h hk rest ih =>
    obtain ⟨outputs, hread, htargets⟩ := ih
    refine ⟨⟨kind, members.filter fun m => m.1 != "type"⟩ :: outputs, ?_, fun rootDir => ?_⟩
    · rw [List.map_cons, List.map_cons, hread, ofJson?, h]
    · rw [List.filter_cons_of_neg (by simpa using hk)]
      exact htargets rootDir

/-- Targets, accessor configurations and components survive JSON, and so do the
targets that a build configuration lists among its outputs. -/
theorem BuildConfig.survivesJson :
    (∀ t : Target, Survives t.toJson Target.ofJson? t) ∧
    (∀ c : AccessorConfig, Survives c.toJson AccessorConfig.ofJson? c) ∧
    (∀ c : Component, Survives c.toJson Component.ofJson? c) ∧
    ∀ (members : Members) (rootDir : String) (vs : List Json) (targets : List Target),
      members.keys.Nodup → members.get? "rootDir" = some (.str rootDir) →
      members.get? "outputTargets" = some (.arr vs) → BuildOutput.Lists vs targets →
      ∃ config, ofJson? (.obj members) = some config ∧ config.rootDir = rootDir ∧
        config.angularTargets? = some targets := by
  refine ⟨Target.faithful.survives (by decide), AccessorConfig.faithful.survives (by decide),
    Component.faithful.survives (by decide), ?_⟩
  intro members rootDir vs targets hn hroot houtputs hlists
  obtain ⟨outputs, hread, htargets⟩ := hlists.exists_outputs
  refine ⟨⟨rootDir, outputs⟩, ?_, rfl, htargets rootDir⟩
  rw [ofJson?, record?_obj hn]
  simp [Fields.get, Fields.getD, hroot, houtputs, hread]

/-- An object with a kind before its other members. -/
def BuildOutput.tagged (kind : String) : Json → Json
  | .obj members => .obj (("type", .str kind) :: members)
  | v => v

/-- Two targets between outputs of other kinds. -/
theorem BuildConfig.survivesJson_mixed :
    let shared : Target := { proxyFile := "lazy.ts", arrayFile := "all.ts" }
    let accessor : AccessorConfig := ⟨.many ["my-input", "my-area"], "change", "value", .text⟩
    let standalone : Target :=
      { proxyFile := "all.ts", outputType := .standalone, accessors := [accessor] }
    ∃ config : BuildConfig,
      ofJson? (.obj [("rootDir", .str "/work"), ("outputTargets", .arr [
        .obj [("type", .str "dist-custom-elements"), ("depth", .int 2)],
        BuildOutput.tagged "angular" shared.toJson,
        .obj [("file", .null), ("type", .str "docs")],
        BuildOutput.tagged "angular" standalone.toJson])]) = some config ∧
      config.rootDir = "/work" ∧ config.angularTargets? = some [shared, standalone] := by
  intro shared accessor standalone
  refine survivesJson.2.2.2 _ "/work" _ _ (by simp [Entries.keys]) rfl rfl ?_
  refine .other rfl (by decide) ?_
  refine @BuildOutput.Lists.target shared [] _ _ _ rfl ?_
  refine .other rfl (by decide) ?_
  exact @BuildOutput.Lists.target standalone [] _ _ _ rfl .nil

end ElementWrappers
