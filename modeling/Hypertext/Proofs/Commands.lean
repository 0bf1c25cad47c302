import Hypertext.Command.FileSystem
import Hypertext.Proofs.JsonText

/-! The actions on one style file. They succeed together or fail together, they speak of one sheet,
and nothing but the file that a build is told to write ever changes. -/

namespace Hypertext

theorem Reply.code_failure_ne (line : Text) : (failure line).code ≠ some 0 := by
  rintro ⟨⟩

namespace Object

def Writable : Object → Prop
  | .vacant mode? => mode?.isSome = true
  | .folder => False
  | .file _ mode => mode.writable = true
  | .device _ takes _ => takes = true

/-- A file consists of the text, a device has been given it last. -/
def Holds (t : Text) : Object → Prop
  | .vacant _ => False
  | .folder => False
  | .file content _ => content = .text t
  | .device _ _ passed => passed.getLast? = some t

theorem written?_spec (t : Text) (object : Object) :
    match object.written? t with
    | some after => object.Writable ∧ after.Holds t
    | none => ¬object.Writable := by
  cases object with
  | vacant mode? => cases mode? <;> simp [written?, Writable, Holds]
  | folder => exact id
  | file content mode => cases own : mode.writable <;> simp [written?, Writable, Holds, own]
  | device source? takes passed => cases takes <;> simp [written?, Writable, Holds]

end Object

namespace FileSystem

def Takes (files : FileSystem) (host : Host) (path content : Text) : Prop :=
  ∃ place, files.locate path = some place ∧ host.stores place content = true ∧
    (files.object place).Writable

/-- The file holds the content, all else is as it was, and no path leads anywhere else. -/
structure Written (before after : FileSystem) (path content : Text) : Prop where
  content : ∃ place, before.locate path = some place ∧ (after.object place).Holds content
  others : ∀ place, before.locate path ≠ some place → after.object place = before.object place
  paths : after.locate = before.locate

variable {files : FileSystem} {host : Host}

theorem object_put (place other : Place) (object : Object) :
    (files.put place object).object other =
      if other = place then object else files.object other :=
  rfl

theorem written_put {path content : Text} {place : Place} {object : Object}
    (leads : files.locate path = some place) (holds : object.Holds content) :
    Written files (files.put place object) path content := by
  constructor
  · refine ⟨place, leads, ?_⟩
    rwa [object_put, if_pos rfl]
  · intro other different
    rw [object_put, if_neg]
    rintro rfl
    exact different leads
  · rfl

/-- A write fails just where nothing can be written to, and otherwise changes the one file. -/
theorem write?_spec (files : FileSystem) (host : Host) (path content : Text) :
    match files.write? host path content with
    | some after => files.Takes host path content ∧ Written files after path content
    | none => ¬files.Takes host path content := by
  unfold write?
  cases leads : files.locate path with
  | none => simp [Takes, leads]
  | some place =>
      have takes : files.Takes host path content ↔
          host.stores place content = true ∧ (files.object place).Writable := by
        simp [Takes, leads]
      by_cases stores : host.stores place content = true
      · have spec := (files.object place).written?_spec content
        simp only [if_pos stores]
        cases wrote : (files.object place).written? content with
        | none =>
            rw [wrote] at spec
            exact fun both => spec (takes.mp both).2
        | some object =>
            rw [wrote] at spec
            exact ⟨takes.mpr ⟨stores, spec.1⟩, written_put leads spec.2⟩
      · simp only [if_neg stores]
        exact fun both => stores (takes.mp both).1

/-- The path leads to the text of a style that stands for the sheet. -/
def Compiles (files : FileSystem) (path : Text) (sheet : Sheet) : Prop :=
  ∃ source style, files.read path = .text source ∧ Style.ofJsonText? source = some style ∧
    Sheet.ofStyle style = .ok sheet

/-- There is memory for every pad of the sheet, if the path leads to one. -/
def Fits (files : FileSystem) (host : Host) (path : Text) (indent : Nat) : Prop :=
  ∀ sheet, files.Compiles path sheet → ∀ width ∈ sheet.padWidths indent, host.holds width = true

variable {words : List Text} {action : Action} {verbosity : Nat}

theorem compile_eq_ok_iff {path : Text} {sheet : Sheet} :
    Action.compile path (files.read path) = .ok sheet ↔ files.Compiles path sheet := by
  cases found : files.read path with
  | missing => simp [Action.compile, Compiles, found]
  | unreadable => simp [Action.compile, Compiles, found]
  | text source =>
      cases parsed : Style.ofJsonText? source with
      | none => simp [Action.compile, Compiles, found, parsed]
      | some style =>
          cases compiled : Sheet.ofStyle style with
          | error e => simp [Action.compile, Compiles, found, parsed, compiled, Except.mapError]
          | ok own => simp [Action.compile, Compiles, found, parsed, compiled, Except.mapError]

theorem Compiles.unique {path : Text} {a b : Sheet} (left : files.Compiles path a)
    (right : files.Compiles path b) : a = b :=
  Except.ok.inj ((compile_eq_ok_iff.mpr left).symm.trans (compile_eq_ok_iff.mpr right))

theorem Compiles.ofText?_toJson {path : Text} {sheet : Sheet} (h : files.Compiles path sheet) :
    Json.ofText? (sheet.toJson.pretty 0 ++ ['\n']) = some sheet.toJson := by
  obtain ⟨source, style, _, read, compiled⟩ := h
  exact Sheet.ofText?_toJson (Sheet.depth_lt_of_ofJsonText? read compiled)

variable (files host) in
theorem run_eq (asked : Invocation.ofArguments words = .run action verbosity) :
    ∃ log, files.run host words =
      let outcome := files.carryOut host (action.plan host.holds (files.read action.path))
      ⟨outcome.1, log, outcome.2⟩ := by
  rw [run, asked]
  exact ⟨_, rfl⟩

variable (host) in
theorem run_of_compiles (asked : Invocation.ofArguments words = .run action verbosity)
    {sheet : Sheet} (own : files.Compiles action.path sheet) :
    ∃ log, files.run host words =
      let outcome := files.carryOut host (action.perform host.holds sheet)
      ⟨outcome.1, log, outcome.2⟩ := by
  have plan : action.plan host.holds (files.read action.path) =
      action.perform host.holds sheet := by
    rw [Action.plan, compile_eq_ok_iff.mpr own]
  rw [← plan]
  exact run_eq files host asked

variable (host) in
/-- Without a sheet every action says why and is done. -/
theorem run_of_not_compiles (asked : Invocation.ofArguments words = .run action verbosity)
    (h : ¬∃ sheet, files.Compiles action.path sheet) :
    ∃ line log, files.run host words = ⟨.failure line, log, files⟩ := by
  obtain ⟨log, run⟩ := run_eq files host asked
  rw [run, Action.plan]
  cases outcome : Action.compile action.path (files.read action.path) with
  | ok sheet => exact absurd ⟨sheet, compile_eq_ok_iff.mp outcome⟩ h
  | error line => exact ⟨line, log, rfl⟩

theorem hasRoom_of_fits {path : Text} {indent : Nat} (fits : files.Fits host path indent)
    {sheet : Sheet} (own : files.Compiles path sheet) :
    sheet.hasRoom host.holds indent = true :=
  List.all_eq_true.mpr (fits sheet own)

def counted (happened file : Text) (count : Nat) : Text :=
  happened ++ ": ".toList ++ file ++ " (".toList ++ Text.ofNat count ++ " rules)\n".toList

/-- What the actions come to that only speak: a check, a list of the rules, and the CSS. -/
structure Agree (files : FileSystem) (path : Text) (indent : Nat) (check rules css : Run) :
    Prop where
  codes : check.reply.code = some 0 ∧ rules.reply.code = some 0 ∧ css.reply.code = some 0 ∨
    check.reply.code = some 1 ∧ rules.reply.code = some 1 ∧ css.reply.code = some 1
  success : check.reply.code = some 0 ↔ ∃ sheet, files.Compiles path sheet
  /-- The check counts the items of the list that can be read from what is printed. -/
  output : ∀ sheet, files.Compiles path sheet →
    css.reply.stdout = sheet.toCss indent ∧
      ∃ items,
        Json.ofText? rules.reply.stdout = some (.object [("rules".toList, .array items)]) ∧
          items = sheet.rules.map Rule.toJson ∧
            check.reply.notice = counted "OK".toList path items.length
  unchanged : check.files = files ∧ rules.files = files ∧ css.files = files

/-- What a build into a file comes to, beside the check and the CSS of the same style file. -/
structure Delivers (files : FileSystem) (host : Host) (path file : Text) (check css build : Run) :
    Prop where
  codes : build.reply.code = some 0 ∨ build.reply.code = some 1
  success : build.reply.code = some 0 ↔
    (∃ sheet, files.Compiles path sheet) ∧ files.Takes host file css.reply.stdout
  failure : build.reply.code ≠ some 0 → build.reply.stdout = [] ∧ build.files = files
  written : build.reply.code = some 0 → Written files build.files file css.reply.stdout
  count : build.reply.code = some 0 → ∃ n, check.reply.notice = counted "OK".toList path n ∧
    build.reply.notice = counted "Built".toList file n

theorem delivers_failure {path file line : Text} {check css : Run} {log : List Event}
    (fails : ¬((∃ sheet, files.Compiles path sheet) ∧ files.Takes host file css.reply.stdout)) :
    Delivers files host path file check css ⟨.failure line, log, files⟩ := by
  have failed := Reply.code_failure_ne line
  constructor
  · exact .inr rfl
  · exact iff_of_false failed fails
  · exact fun _ => ⟨rfl, rfl⟩
  · exact fun success => absurd success failed
  · exact fun success => absurd success failed

theorem countLine_eq (happened name : Text) (sheet : Sheet) :
    Action.countLine happened name sheet ++ ['\n'] = counted happened name sheet.size := by
  simp [Action.countLine, counted]

section Actions

variable {path file : Text} {indent : Nat} {checkWords ruleWords cssWords buildWords : List Text}
  {checkVerbosity ruleVerbosity cssVerbosity buildVerbosity : Nat}
  (checks : Invocation.ofArguments checkWords = .run (.check path) checkVerbosity)
  (lists : Invocation.ofArguments ruleWords = .run (.rules path) ruleVerbosity)
  (prints : Invocation.ofArguments cssWords = .run (.build path indent none) cssVerbosity)
  (builds : Invocation.ofArguments buildWords =
    .run (.build path indent (some file)) buildVerbosity)
  (fits : files.Fits host path indent)

include prints fits in
theorem run_css {sheet : Sheet} (own : files.Compiles path sheet) :
    ∃ log, files.run host cssWords = ⟨.success (sheet.toCss indent), log, files⟩ := by
  obtain ⟨log, css⟩ := run_of_compiles host prints own
  rw [css, Action.perform, if_pos (hasRoom_of_fits fits own)]
  exact ⟨log, rfl⟩

include checks lists prints fits in
theorem agree : Agree files path indent (files.run host checkWords) (files.run host ruleWords)
    (files.run host cssWords) := by
  by_cases compiles : ∃ sheet, files.Compiles path sheet
  · have ⟨sheet, own⟩ := compiles
    obtain ⟨checkLog, check⟩ := run_of_compiles host checks own
    obtain ⟨ruleLog, rules⟩ := run_of_compiles host lists own
    obtain ⟨cssLog, css⟩ := run_css prints fits own
    rw [check, rules, css]
    refine ⟨.inl ⟨rfl, rfl, rfl⟩, iff_of_true rfl compiles, ?_, rfl, rfl, rfl⟩
    intro other same
    obtain rfl := own.unique same
    refine ⟨rfl, _, own.ofText?_toJson, rfl, ?_⟩
    rw [List.length_map]
    exact countLine_eq "OK".toList path sheet
  · obtain ⟨checkLine, checkLog, check⟩ := run_of_not_compiles host checks compiles
    obtain ⟨ruleLine, ruleLog, rules⟩ := run_of_not_compiles host lists compiles
    obtain ⟨cssLine, cssLog, css⟩ := run_of_not_compiles host prints compiles
    rw [check, rules, css]
    have failed := Reply.code_failure_ne checkLine
    refine ⟨.inr ⟨rfl, rfl, rfl⟩, iff_of_false failed compiles, ?_, rfl, rfl, rfl⟩
    intro sheet own
    exact absurd ⟨sheet, own⟩ compiles

include checks prints builds fits in
theorem delivers : Delivers files host path file (files.run host checkWords)
    (files.run host cssWords) (files.run host buildWords) := by
  by_cases compiles : ∃ sheet, files.Compiles path sheet
  · have ⟨sheet, own⟩ := compiles
    have spec := write?_spec files host file (sheet.toCss indent)
    obtain ⟨checkLog, check⟩ := run_of_compiles host checks own
    obtain ⟨cssLog, css⟩ := run_css prints fits own
    obtain ⟨buildLog, build⟩ := run_of_compiles host builds own
    rw [check, css, build, Action.perform, if_pos (hasRoom_of_fits fits own)]
    simp only [carryOut]
    cases wrote : files.write? host file (sheet.toCss indent) with
    | none =>
        rw [wrote] at spec
        exact delivers_failure fun both => spec both.2
    | some after =>
        rw [wrote] at spec
        obtain ⟨takes, written⟩ := spec
        constructor
        · exact .inl rfl
        · exact iff_of_true rfl ⟨compiles, takes⟩
        · exact fun failed => absurd rfl failed
        · exact fun _ => written
        · refine fun _ => ⟨sheet.size, ?_, ?_⟩
          · exact countLine_eq "OK".toList path sheet
          · exact countLine_eq "Built".toList file sheet
  · obtain ⟨line, log, build⟩ := run_of_not_compiles host builds compiles
    rw [build]
    exact delivers_failure fun both => compiles both.1

include checks lists prints builds fits in
/-- However the words ask for them, the actions on one style file agree if there is memory for the
pads, and a build into a file leaves all other files alone, and every file where it fails. -/
theorem run_agree :
    Agree files path indent (files.run host checkWords) (files.run host ruleWords)
        (files.run host cssWords) ∧
      Delivers files host path file (files.run host checkWords) (files.run host cssWords)
        (files.run host buildWords) :=
  ⟨agree checks lists prints fits, delivers checks prints builds fits⟩

end Actions

end FileSystem

/-- The style that the file of `FileSystem.oneFile` holds. -/
def Style.hovered : Style :=
  .scope "p".toList
    (.property "width".toList (.number (.ofNat 5)) <|
      .scope "&:hover".toList (.property "color".toList (.text "red".toList) .nil) .nil) .nil

def Sheet.hovered : Sheet where
  rules :=
    [⟨"p".toList, [⟨"width".toList, "5px".toList⟩], 0⟩,
      ⟨"p:hover".toList, [⟨"color".toList, "red".toList⟩], 1⟩]

/-- A host with as much memory as there can be, and a disk to match. -/
def Host.largest : Host where
  holds width := width ≤ Text.capacity
  stores _ _ := true
  wanted? := none

namespace FileSystem

/-- A style file that two paths lead to and that can be written over, and a device. -/
def oneFile : FileSystem where
  locate path :=
    if path = "a.json".toList ∨ path = "./a.json".toList then some ["a.json".toList]
    else if path = "/dev/null".toList then some ["null".toList, "dev".toList]
    else none
  object place :=
    if place = ["a.json".toList] then
      .file (.text r#"{"p": {"width": 5, "&:hover": {"color": "red"}}}"#.toList) ⟨true, true⟩
    else if place = ["null".toList, "dev".toList] then .device (some (.text [])) true []
    else .vacant none

theorem compiles_oneFile : oneFile.Compiles "a.json".toList Sheet.hovered :=
  ⟨_, Style.hovered, rfl, by decide +kernel, rfl⟩

theorem fits_oneFile {indent : Nat} (small : indent ≤ Text.capacity) :
    oneFile.Fits .largest "a.json".toList indent := by
  intro sheet own
  obtain rfl := compiles_oneFile.unique own
  have widths : Sheet.hovered.padWidths indent = [indent, 0, indent] := by
    simp [Sheet.padWidths, Sheet.hovered, Rule.padWidth]
  simp [widths, Host.largest, small]

theorem run_agree_oneFile :
    let checkWords := ["-v".toList, "check".toList, "a.json".toList]
    let ruleWords := ["rules".toList, "--".toList, "a.json".toList]
    let cssWords := ["build".toList, "--indent=2".toList, "a.json".toList, "-vv".toList]
    let buildWords := ["build".toList, "a.json".toList, "--indent".toList, "+2".toList,
      "-o".toList, "./a.json".toList]
    Invocation.ofArguments checkWords = .run (.check "a.json".toList) 1 ∧
      Invocation.ofArguments ruleWords = .run (.rules "a.json".toList) 0 ∧
      Invocation.ofArguments cssWords = .run (.build "a.json".toList 2 none) 2 ∧
      Invocation.ofArguments buildWords =
        .run (.build "a.json".toList 2 (some "./a.json".toList)) 0 ∧
      oneFile.Fits .largest "a.json".toList 2 ∧
      (oneFile.run .largest buildWords).reply.code = some 0 ∧
      Agree oneFile "a.json".toList 2 (oneFile.run .largest checkWords)
        (oneFile.run .largest ruleWords) (oneFile.run .largest cssWords) ∧
      Delivers oneFile .largest "a.json".toList "./a.json".toList
        (oneFile.run .largest checkWords) (oneFile.run .largest cssWords)
        (oneFile.run .largest buildWords) := by
  intro checkWords ruleWords cssWords buildWords
  have checks : Invocation.ofArguments checkWords = .run (.check "a.json".toList) 1 := by decide
  have lists : Invocation.ofArguments ruleWords = .run (.rules "a.json".toList) 0 := by decide
  have prints : Invocation.ofArguments cssWords = .run (.build "a.json".toList 2 none) 2 := by
    decide
  have builds : Invocation.ofArguments buildWords =
      .run (.build "a.json".toList 2 (some "./a.json".toList)) 0 := by decide
  have fits : oneFile.Fits .largest "a.json".toList 2 := fits_oneFile (by decide)
  have built : (oneFile.run .largest buildWords).reply.code = some 0 := by decide +kernel
  exact ⟨checks, lists, prints, builds, fits, built, run_agree checks lists prints builds fits⟩

end FileSystem

end Hypertext
