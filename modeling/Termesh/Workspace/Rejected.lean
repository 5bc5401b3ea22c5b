import Termesh.Workspace.Permissions

/-!
# Settings that are rejected

A settings file that cannot be loaded leaves the policy empty. What the human grants afterwards is
saved at exit, into the same file.

* `commandsOf`: what the file holds where the grants are looked for;
* `saved`, `Standing`, `atExit`: the file after a save, and after a run;
* **`rejected_kept_iff`**: which rejected files survive a save, and a run;
* **`rejected_overwritten`**: one that does not.
-/

namespace Termesh

open Toml (Item Table Format)

namespace App.PermissionStore

/-- What stands under `agent.permissions.commands`, where `agent` and `permissions` are tables. -/
def commandsOf (document : Table) : Option Item :=
  match Table.get document "agent" with
  | some (.table agent) =>
    match Table.get agent "permissions" with
    | some (.table permissions) => Table.get permissions "commands"
    | _ => none
  | _ => none

/-- The bytes are a document, and it has commands. -/
def NamesCommands (f : Format) (root : Path) (bytes : ByteArray) : Prop :=
  ∃ document commands, readDocument f (settingsPath root) bytes = .ok document ∧
    commandsOf document = some commands

/-- The file after a save. -/
def saved (f : Format) (root : Path) (disk : Option ByteArray) (policy : PermissionPolicy) :
    Option ByteArray :=
  match save f root disk policy with
  | .ok bytes => some bytes
  | .error _ => disk

/-- A policy that knows whether it was changed since it was loaded. -/
structure Standing where
  grants : PermissionPolicy
  dirty : Bool

/-- `PermissionPolicy::remember`. -/
def Standing.remember (root : Path) (s : Standing) (spec : TerminalSpec) : Standing :=
  match CommandGrant.fromSpec root spec with
  | none => s
  | some grant => if s.grants.contains grant then s else ⟨s.grants ++ [grant], true⟩

/-- What a run starts with: the empty policy when the file is rejected. -/
def opened (f : Format) (root : Path) (disk : Option ByteArray) : Standing :=
  match load f root disk with
  | .ok policy => ⟨policy, false⟩
  | .error _ => ⟨[], false⟩

/-- The file after a run in which these commands were to be remembered. -/
def atExit (f : Format) (root : Path) (disk : Option ByteArray) (given : List TerminalSpec) :
    Option ByteArray :=
  let s := given.foldl (Standing.remember root) (opened f root disk)
  if s.dirty then saved f root disk s.grants else disk

/-! ## Where both refuse -/

variable {f : Format} {root : Path} {bytes : ByteArray}

/-- Two results that fail, fail with the same error or not, whatever they would have returned. -/
theorem error_eq_iff {α β : Type} {e e' : FsError} :
    (Except.error e : Except FsError α) = .error e' ↔
      (Except.error e : Except FsError β) = .error e' := by
  rw [Except.error.injEq, Except.error.injEq]

/-- A document without commands is loaded just when it can be saved into. -/
theorem policyFromDocument_without_commands {path : Path} {document : Table}
    (hc : commandsOf document = none) {e : FsError} (policy : PermissionPolicy) :
    policyFromDocument root path document = .error e ↔
      replaceCommands path document policy = .error e := by
  unfold commandsOf at hc
  unfold policyFromDocument replaceCommands tableAt
  cases hagent : Table.get document "agent" with
  | none => exact ⟨fun h => (by cases h), fun h => (by cases h)⟩
  | some agent =>
    rw [hagent] at hc
    cases agent with
    | table agent =>
      dsimp only [bind, Except.bind] at hc ⊢
      cases hperm : Table.get agent "permissions" with
      | none => exact ⟨fun h => (by cases h), fun h => (by cases h)⟩
      | some permissions =>
        rw [hperm] at hc
        cases permissions with
        | table permissions =>
          dsimp only at hc ⊢
          rw [hc]
          exact ⟨fun h => (by cases h), fun h => (by cases h)⟩
        | _ => exact error_eq_iff
    | _ => exact error_eq_iff

theorem replaceCommands_ok {document : Table} {commands : Item}
    (hc : commandsOf document = some commands) (path : Path) (policy : PermissionPolicy) :
    ∃ replaced, replaceCommands path document policy = .ok replaced := by
  unfold commandsOf at hc
  split at hc
  · rename_i agent hagent
    split at hc
    · rename_i permissions hperm
      unfold replaceCommands tableAt
      rw [hagent]
      dsimp only [bind, Except.bind]
      rw [hperm]
      exact ⟨_, rfl⟩
    · cases hc
  · cases hc

/-- Where there are no commands, loading fails just when saving does, and for the same reason. -/
theorem load_without_commands (hc : ¬ NamesCommands f root bytes) (policy : PermissionPolicy)
    (e : FsError) :
    load f root (some bytes) = .error e ↔ save f root (some bytes) policy = .error e := by
  simp only [load, save, openDocument, bind, Except.bind]
  cases hread : readDocument f (settingsPath root) bytes with
  | error e' => exact error_eq_iff
  | ok document =>
    have hnone : commandsOf document = none := by
      by_contra hsome
      obtain ⟨commands, hsome⟩ := Option.ne_none_iff_exists'.mp hsome
      exact hc ⟨document, commands, hread, hsome⟩
    dsimp only
    rw [policyFromDocument_without_commands hnone policy]
    cases replaceCommands (settingsPath root) document policy with
    | error e' => exact error_eq_iff
    | ok replaced => exact ⟨fun h => (by cases h), fun h => (by cases h)⟩

theorem save_ok (hc : NamesCommands f root bytes) (policy : PermissionPolicy) :
    ∃ written, save f root (some bytes) policy = .ok written := by
  obtain ⟨document, commands, hread, hsome⟩ := hc
  obtain ⟨replaced, hreplaced⟩ := replaceCommands_ok hsome (settingsPath root) policy
  refine ⟨(f.print replaced).toUTF8, ?_⟩
  simp only [save, openDocument, bind, Except.bind, hread, hreplaced]
  rfl

/-! ## A run -/

theorem Standing.remember_grants (s : Standing) (spec : TerminalSpec) :
    (s.remember root spec).grants = (s.grants.remember root spec).1 := by
  unfold Standing.remember PermissionPolicy.remember
  cases CommandGrant.fromSpec root spec with
  | none => rfl
  | some grant =>
    dsimp only
    split <;> rfl

/-- From the empty policy, a policy is changed by the first safe command. -/
theorem dirty_foldl (hr : root.Proper) (ha : root.isAbsolute) {s : Standing}
    {before : List TerminalSpec} (given : List TerminalSpec)
    (hg : ∀ spec ∈ given, spec.cwd.Proper) (hh : Holds root before s.grants)
    (hd : s.dirty = true ↔ ∃ spec ∈ before, Safe root spec) :
    let s' := given.foldl (Standing.remember root) s
    Holds root (before ++ given) s'.grants ∧
      (s'.dirty = true ↔ ∃ spec ∈ before ++ given, Safe root spec) := by
  induction given generalizing s before with
  | nil => simpa using ⟨hh, hd⟩
  | cons spec given ih =>
    have hcwd := hg spec List.mem_cons_self
    have hholds : Holds root (before ++ [spec]) (s.remember root spec).grants :=
      s.remember_grants spec ▸ holds_remember hr ha hcwd hh
    have hdirty : (s.remember root spec).dirty = true ↔
        ∃ given ∈ before ++ [spec], Safe root given := by
      unfold Standing.remember
      cases hspec : CommandGrant.fromSpec root spec with
      | none =>
        rw [hd]
        refine ⟨fun ⟨given, hm, hs⟩ => ⟨given, List.mem_append_left _ hm, hs⟩, ?_⟩
        rintro ⟨given, hm, hs⟩
        rcases List.mem_append.mp hm with hm | hm
        · exact ⟨given, hm, hs⟩
        · obtain rfl := List.mem_singleton.mp hm
          rw [(fromSpec_iff hr ha hcwd _).mpr ⟨hs, rfl⟩] at hspec
          cases hspec
      | some grant =>
        have hsafe := (fromSpec_iff hr ha hcwd grant).mp hspec
        have hany : ∃ given ∈ before ++ [spec], Safe root given :=
          ⟨spec, List.mem_append_right _ List.mem_cons_self, hsafe.1⟩
        dsimp only
        split
        · rename_i hcontains
          refine iff_of_true (hd.mpr ?_) hany
          obtain ⟨given, hm, hs, -⟩ := (hh.2 grant).mp (by simpa using hcontains)
          exact ⟨given, hm, hs⟩
        · exact iff_of_true rfl hany
    have hrest := ih (fun spec hs => hg spec (.tail _ hs)) hholds hdirty
    simpa using hrest

/-- **Which rejected files are kept.** A save of any policy fails and leaves the file just when the
file is no document or has no commands under tables. A run that starts with a rejected file leaves
it under that condition, or when nothing safe was to be remembered; there, what would be written
at exit is a document that is read back. -/
theorem rejected_kept_iff (f : Format) (root : Path) (hr : root.Proper) (ha : root.isAbsolute)
    (bytes : ByteArray) (e : FsError) (hl : load f root (some bytes) = .error e) :
    (∀ policy, (∃ e', save f root (some bytes) policy = .error e') ∧
      saved f root (some bytes) policy = some bytes ↔ ¬ NamesCommands f root bytes) ∧
    ∀ given : List TerminalSpec, (∀ spec ∈ given, spec.cwd.Proper) →
      (∀ t, savedDocument f root (some bytes)
        (given.foldl (Standing.remember root) (opened f root (some bytes))).grants = .ok t →
          f.Preserves t) →
      (atExit f root (some bytes) given = some bytes ↔
        ¬ NamesCommands f root bytes ∨ ∀ spec ∈ given, ¬ Safe root spec) := by
  have hkept : ¬ NamesCommands f root bytes → ∀ policy,
      save f root (some bytes) policy = .error e ∧
        saved f root (some bytes) policy = some bytes := by
    intro hc policy
    have hsave := (load_without_commands hc policy e).mp hl
    exact ⟨hsave, by rw [saved, hsave]⟩
  constructor
  · intro policy
    refine ⟨fun ⟨⟨e', hsave⟩, _⟩ hc => ?_, fun hc => ⟨⟨e, (hkept hc policy).1⟩, (hkept hc policy).2⟩⟩
    obtain ⟨written, hw⟩ := save_ok hc policy
    rw [hw] at hsave
    cases hsave
  · intro given hg hf
    have hopened : opened f root (some bytes) = ⟨[], false⟩ := by rw [opened, hl]
    have hstart : Holds root [] (⟨[], false⟩ : Standing).grants := ⟨⟨by simp, by simp⟩, by simp⟩
    obtain ⟨hholds, hdirty⟩ := dirty_foldl hr ha given hg
      hstart (by simp)
    rw [List.nil_append] at hholds hdirty
    rw [hopened] at hf
    rw [atExit, hopened]
    by_cases hsafe : ∃ spec ∈ given, Safe root spec
    · rw [if_pos (hdirty.mpr hsafe)]
      constructor
      · intro hsame
        refine .inl fun hc => ?_
        -- what was written is loaded again, the rejected bytes are not
        obtain ⟨written, hw⟩ := save_ok hc (given.foldl (Standing.remember root) ⟨[], false⟩).grants
        rw [saved, hw] at hsame
        obtain rfl := Option.some.inj hsame
        rw [load_save hr ha hholds.1 hw hf] at hl
        cases hl
      · rintro (hc | hnone)
        · exact (hkept hc _).2
        · obtain ⟨spec, hm, hs⟩ := hsafe
          exact absurd hs (hnone spec hm)
    · rw [if_neg fun hd => hsafe (hdirty.mp hd)]
      exact iff_of_true rfl (.inr fun spec hm hs => hsafe ⟨spec, hm, hs⟩)

/-- A command that was granted outside of the workspace by hand. -/
def strayCommand : Table :=
  [("program", .string "cargo"), ("cwd", .string "../tmp"), ("args", .array [])]

/-- A document of these commands and no more. -/
def commandsAlone (commands : List Table) : Table :=
  [("agent", .table [("permissions", .table [("commands", .tables commands)])])]

/-- The text of the command. -/
def strayText : String :=
  "[[agent.permissions.commands]]\nprogram = \"cargo\"\ncwd = \"../tmp\"\nargs = []\n"

/-- The text of one grant, where the tables around it have no header. -/
def grantText : String :=
  "[[agent.permissions.commands]]\nprogram = \"cargo\"\nargs = [\"test\"]\ncwd = \"src\"\n"

/-- A reader and a writer of these texts. Without commands, there is no text. -/
def strayFormat : Format where
  parse text :=
    if text = strayText then .ok (commandsAlone [strayCommand])
    else if text = grantText then
      .ok (commandsAlone [commandTable ⟨"cargo", ["test"], [.normal "src"]⟩])
    else if text = "" then .ok []
    else .error "expected a command"
  print document :=
    match commandsOf document with
    | some (.tables (_ :: _)) => grantText
    | _ => ""

/-- The file of the command. -/
def strayBytes : ByteArray := strayText.toUTF8

theorem readDocument_stray : readDocument strayFormat (settingsPath grantRoot) strayBytes =
    .ok (commandsAlone [strayCommand]) := by
  rw [readDocument, strayBytes, fromUTF8?_toUTF8]
  simp [parseDocument, strayFormat, Except.mapError]

theorem load_stray : load strayFormat grantRoot (some strayBytes) = .error (configError
    (settingsPath grantRoot) "command 0 cwd must stay inside the workspace") := by
  rw [load, readDocument_stray]
  rfl

theorem blank_commandsAlone : Toml.Blank (.table (commandsAlone [])) := by
  have hone : ∀ (key : String) (item : Item), Toml.Blank item → Toml.Blank (.table [(key, item)]) :=
    fun key item hitem => .table fun key' x hx => by
      rw [Table.get_cons] at hx
      split_ifs at hx
      · exact Option.some.inj hx ▸ hitem
      · cases hx
  exact hone _ _ (hone _ _ (hone _ _ .tables))

/-- Without commands, the document that is saved has no text, and it is read back. -/
theorem preserves_stray {t : Table}
    (ht : savedDocument strayFormat grantRoot (some strayBytes) [] = .ok t) :
    strayFormat.Preserves t := by
  have hsaved : savedDocument strayFormat grantRoot (some strayBytes) [] =
      .ok (commandsAlone []) := by
    simp only [savedDocument, openDocument, readDocument_stray]
    rfl
  obtain rfl := Except.ok.inj (hsaved.symm.trans ht)
  refine ⟨[], by simp [strayFormat, commandsOf, commandsAlone, Table.get_cons, grantText, strayText],
    .table (fun _ _ => rfl) (fun key x hx _ => blank_commandsAlone.of_get hx)
      fun key x y _ hy => absurd hy (by simp)⟩

/-- A run that grants a command replaces the file, and one that grants nothing leaves it. -/
theorem rejected_kept_iff_stray :
    atExit strayFormat grantRoot (some strayBytes) [cargoTest "/proj/src"] ≠ some strayBytes ∧
    atExit strayFormat grantRoot (some strayBytes) [cargoTest "/tmp"] = some strayBytes := by
  have hopened : opened strayFormat grantRoot (some strayBytes) = ⟨[], false⟩ := by
    rw [opened, load_stray]
  have hruns := (rejected_kept_iff strayFormat grantRoot (Path.proper_ofString _) (by decide)
    strayBytes _ load_stray).2
  constructor
  · refine fun hsame => absurd ((hruns [cargoTest "/proj/src"] ?_ fun t ht => ?_).mp hsame) ?_
    · exact List.forall_mem_singleton.mpr (Path.proper_ofString "/proj/src")
    · have hgrant : strayFormat.parse grantText =
          .ok (commandsAlone [commandTable ⟨"cargo", ["test"], [.normal "src"]⟩]) := by
        simp [strayFormat, grantText, strayText]
      have hsaved : savedDocument strayFormat grantRoot (some strayBytes)
          [⟨"cargo", ["test"], [.normal "src"]⟩] =
            .ok (commandsAlone [commandTable ⟨"cargo", ["test"], [.normal "src"]⟩]) := by
        simp only [savedDocument, openDocument, readDocument_stray]
        rfl
      rw [hopened] at ht
      obtain rfl := Except.ok.inj (hsaved.symm.trans ht)
      exact ⟨_, hgrant, Toml.Same.refl _⟩
    · rintro (hno | hunsafe)
      · exact hno ⟨_, _, readDocument_stray, rfl⟩
      · exact hunsafe _ (List.mem_singleton_self _) ⟨rfl, by decide, by decide, by decide⟩
  · refine (hruns [cargoTest "/tmp"] ?_ fun t ht => ?_).mpr (.inr ?_)
    · exact List.forall_mem_singleton.mpr (Path.proper_ofString "/tmp")
    · rw [hopened] at ht
      exact preserves_stray ht
    · exact List.forall_mem_singleton.mpr fun hsafe => absurd hsafe.2.2.2 (by decide)

/-- The rejected file of the command is overwritten when the policy is saved, although the document
that is written is read back. -/
theorem rejected_overwritten :
    ¬ ∀ (f : Format) (root : Path) (bytes : ByteArray) (e : FsError), root.Proper →
      root.isAbsolute → load f root (some bytes) = .error e → ∀ policy,
        (∀ t, savedDocument f root (some bytes) policy = .ok t → f.Preserves t) →
        (∃ e', save f root (some bytes) policy = .error e') ∧
          saved f root (some bytes) policy = some bytes := by
  intro hall
  obtain ⟨⟨e', hsave⟩, -⟩ := hall strayFormat grantRoot strayBytes _ (Path.proper_ofString _)
    (by decide) load_stray [] fun _ => preserves_stray
  obtain ⟨written, hw⟩ := save_ok ⟨_, _, readDocument_stray, rfl⟩ []
  rw [hw] at hsave
  cases hsave

end App.PermissionStore

end Termesh
