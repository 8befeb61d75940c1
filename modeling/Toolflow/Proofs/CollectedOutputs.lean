import Toolflow.Modules.Script
import Toolflow.Proofs.Copying
import Toolflow.Proofs.MovedFiles
import Toolflow.Proofs.Overlooking
import Toolflow.Proofs.Steps

/-! Collecting what a script wrote.

The outputs of a script that are files are moved to their targets one after another, in the order of
their names. If each has a file and a target of its own, all of them arrive exactly if none of the
targets is the file of a later output: that file would be overwritten before it is moved. -/
namespace Toolflow.Modules.Script.Job
open Disk
variable {s : Job} {ctx : Context} {host : Host} {bench after : Bench} {file target : String}
  {content : ByteArray}

/-- The file that the script is expected to write for an output in file mode. -/
def fileOf? (s : Job) (ctx : Context) (o : Output) : Option String :=
  (o.file.bind fun file => (ctx.env.resolveFinal file).str?).map
    (Pathname.join (s.workingDirectory ctx))

/-- An output that is a file to be moved to its target. -/
structure Collects (s : Job) (ctx : Context) (e : String × Output) (file target : String) :
    Prop where
  mode : e.2.mode = .file
  mandatory : e.2.isOptional = false
  file : s.fileOf? ctx e.2 = some file
  target : ctx.outputs.str? e.1 = some target

/-- A file that the script has written is moved to its target, also if it is there already. -/
theorem collect_moves (tree : bench.disk.IsTree) (hread : bench.disk.read file = .ok content)
    (h : collect file target false host bench = .ok () after) :
    bench.disk.HandsOn after.disk file target := by
  unfold collect at h
  rw [Exec.bind_run, Exec.disk_run] at h
  dsimp only at h
  rw [if_pos (exists?_of_read hread)] at h
  split at h
  · rw [Exec.change_run] at h
    split at h
    · rename_i moved hmoved
      cases h
      exact (tree.rename_moves hread hmoved).1
    · cases h
  · rename_i hsame
    cases h
    simp only [not_not, Bool.and_eq_true, beq_iff_eq] at hsame
    obtain ⟨-, hsame⟩ := hsame
    rw [canonical?_of_read hread] at hsame
    obtain ⟨htarget, hreaches⟩ := reaches_of_canonical? hsame.symm (read_iff.mp hread).2
    refine ⟨tree.extends_self, hreaches, ?_⟩
    rw [← htarget, handOn_self]

/-- Making the directories above a target and collecting its file. -/
theorem deliver_eq {e : String × Output} (h : s.Collects ctx e file target) (stdout : ByteArray) :
    s.deliver ctx stdout e.1 e.2 = match Pathname.parent? target with
      | some parent =>
        Exec.change (.creating parent) (·.createDirectories parent) >>= fun _ =>
          collect file target false
      | none => collect file target false := by
  obtain ⟨produced, hproduced, rfl⟩ := Option.map_eq_some_iff.mp h.file
  unfold deliver
  rw [h.target, h.mode, hproduced, h.mandatory]
  dsimp only
  cases Pathname.parent? target <;> rfl

/-- One output is delivered. -/
theorem deliver_moves {e : String × Output} {stdout : ByteArray}
    (houtput : s.Collects ctx e file target) (tree : bench.disk.IsTree)
    (hread : bench.disk.read file = .ok content)
    (h : s.deliver ctx stdout e.1 e.2 host bench = .ok () after) :
    bench.disk.HandsOn after.disk file target := by
  rw [deliver_eq houtput] at h
  split at h
  · rw [Exec.bind_run, Exec.change_run] at h
    cases hmade : bench.disk.createDirectories _ with
    | error fault =>
      rw [hmade] at h
      cases h
    | ok made =>
      rw [hmade] at h
      obtain ⟨hgrown, hfiles⟩ := tree.createDirectories hmade
      have hmoved : made.HandsOn after.disk file target := by
        have hkept : made.read file = .ok content := hgrown.read hfiles hread
        exact collect_moves (by exact hgrown.tree) (by exact hkept) h
      refine ⟨hgrown.trans hmoved.grown, hmoved.reached, ?_⟩
      rw [hmoved.files, hfiles, hgrown.leads, hgrown.leads]
  · exact collect_moves tree hread h

/-- The moves that bring the files of outputs, given by name, to their targets. -/
def moves (disk : Disk) (file target : String → String) (names : List String) :
    List (String × String) :=
  names.map fun name => (disk.leads (file name), disk.leads (target name))

/-- The outputs are delivered one after another, as long as each finds a file. -/
theorem forM_deliver_moves {stdout : ByteArray} {file target : String → String}
    (l : List (String × Output))
    (outputs : ∀ e ∈ l, s.Collects ctx e (file e.1) (target e.1)) (tree : bench.disk.IsTree)
    (written : ∀ e ∈ l, ∃ content, bench.disk.read (file e.1) = .ok content)
    (files : ((l.map (·.1)).map fun name => bench.disk.leads (file name)).Nodup)
    (h : (l.forM fun e => s.deliver ctx stdout e.1 e.2) host bench = .ok () after) :
    bench.disk.Extends after.disk ∧ (∀ e ∈ l, after.disk.Reaches (target e.1)) ∧
      after.disk.fileAt =
        (moves bench.disk file target (l.map (·.1))).foldl handOn bench.disk.fileAt := by
  induction l generalizing bench with
  | nil =>
    cases h
    exact ⟨tree.extends_self, nofun, rfl⟩
  | cons e rest ih =>
    obtain ⟨houtput, outputs⟩ := List.forall_mem_cons.mp outputs
    obtain ⟨⟨content, hread⟩, written⟩ := List.forall_mem_cons.mp written
    obtain ⟨hfile, files⟩ := List.nodup_cons.mp files
    obtain ⟨_, between, hfirst, h⟩ := Exec.exists_of_bind h
    have hmoved := deliver_moves houtput tree hread hfirst
    have hleads := hmoved.grown.leads
    have hlater : ∀ d ∈ rest, ∃ c, between.disk.read (file d.1) = .ok c := fun d hd =>
      hmoved.read_later hread (written d hd) fun heq =>
        hfile (List.mem_map.mpr ⟨d.1, List.mem_map_of_mem hd, heq⟩)
    obtain ⟨hgrown, hreached, hfiles⟩ := ih outputs hmoved.grown.tree hlater
      (by simpa only [hleads] using files) h
    refine ⟨hmoved.grown.trans hgrown, List.forall_mem_cons.mpr
      ⟨hgrown.reaches hmoved.reached, hreached⟩, ?_⟩
    simp only [hfiles, hmoved.files, hleads, moves, List.map_cons, List.foldl_cons]

/-- Once the script has run, its outputs are delivered from the disk that it left. -/
theorem exists_of_execute {command : Command} {p : Progress} {outcome : Outcome} {left : Disk}
    (hcommand : s.command ctx = .ok command)
    (ran : host.run command bench.disk = (.ok outcome, left))
    (h : s.execute ctx p host bench = .ok () after) :
    ∃ written : Bench, written.disk = left ∧ (s.outputs.entries.forM fun e =>
      s.deliver ctx outcome.stdout e.1 e.2) host written = .ok () after := by
  obtain ⟨_, _, hfirst, h⟩ := Exec.exists_of_bind h
  cases (Exec.ofExcept_ok host bench hcommand).symm.trans hfirst
  -- the first phase is announced with one message or another
  split at h
  all_goals
    obtain ⟨_, _, hphase, h⟩ := Exec.exists_of_bind h
    cases hphase
    obtain ⟨stdout, _, hrun, h⟩ := Exec.exists_of_bind h
    obtain ⟨-, _, _, hleft, -, rfl, rfl⟩ :=
      Command.run_eq_ok_iff.mp ((Exec.during_eq_ok_iff _).mp hrun)
    cases ran.symm.trans hleft
    exact ⟨_, rfl, h⟩

/-- In a list in order, the later elements are the greater ones. -/
theorem pairwise_iff_of_ascending {R : String → String → Prop} {l : List String}
    (ascending : l.Pairwise (· < ·)) :
    l.Pairwise R ↔ ∀ a ∈ l, ∀ b ∈ l, a < b → R a b := by
  refine ⟨fun h => ?_, fun h => ascending.imp_of_mem fun ha hb hlt => h _ ha _ hb hlt⟩
  induction l with
  | nil => exact fun a ha => nomatch ha
  | cons first rest ih =>
    obtain ⟨hfirst, ascending⟩ := List.pairwise_cons.mp ascending
    obtain ⟨hrelated, h⟩ := List.pairwise_cons.mp h
    intro a ha b hb hlt
    rcases List.mem_cons.mp ha with rfl | hlater
    · rcases List.mem_cons.mp hb with rfl | hlast
      · exact absurd hlt (String.lt_irrefl _)
      · exact hrelated b hlast
    · rcases List.mem_cons.mp hb with rfl | hlast
      · exact absurd hlt (String.lt_asymm (hfirst a hlater))
      · exact ih ascending h a hlater b hlast hlt

/-- A run of a script whose outputs are files: from where to where each output is to be moved, with
places of its own at both ends, and what the script left there for it. -/
structure Handover (s : Job) (ctx : Context) (host : Host) (start left : Disk)
    (file target : String → String) (content : String → ByteArray) : Prop where
  outputs : ∀ e ∈ s.outputs.entries, s.Collects ctx e (file e.1) (target e.1)
  ran : ∃ command outcome, s.command ctx = .ok command ∧
    host.run command start = (.ok outcome, left)
  tree : left.IsTree
  written : ∀ name ∈ s.outputs.keys, left.read (file name) = .ok (content name)
  files : (s.outputs.keys.map fun name => left.leads (file name)).Nodup
  targets : (s.outputs.keys.map fun name => left.leads (target name)).Nodup

/-- Each target holds what the script wrote for it exactly if no output goes where the file of a
later one, by name, still lies. -/
theorem outputs_collected_iff {params : Value} {left : Disk} {file target : String → String}
    {content : String → ByteArray} (parsed : parse params = .ok s)
    (handover : s.Handover ctx host bench.disk left file target content) {p : Progress}
    (h : s.execute ctx p host bench = .ok () after) :
    (∀ name ∈ s.outputs.keys, after.disk.read (target name) = .ok (content name)) ↔
      ∀ name ∈ s.outputs.keys, ∀ later ∈ s.outputs.keys, name < later →
        left.leads (target name) ≠ left.leads (file later) := by
  obtain ⟨outputs, ⟨command, outcome, hcommand, ran⟩, tree, written, files, targets⟩ := handover
  obtain ⟨start, rfl, h⟩ := exists_of_execute hcommand ran h
  have ascending : s.outputs.Ascending := (readFrom_of_parse parsed).outputs_entries.1
  have hname : ∀ e ∈ s.outputs.entries, e.1 ∈ s.outputs.keys := fun e he =>
    List.mem_map_of_mem he
  obtain ⟨hgrown, hreached, hfiles⟩ := forM_deliver_moves s.outputs.entries outputs tree
    (fun e he => ⟨_, written e.1 (hname e he)⟩) files h
  have hthere : ∀ move ∈ moves start.disk file target s.outputs.keys,
      (start.disk.fileAt move.1).isSome := by
    intro move hmove
    obtain ⟨name, hmem, rfl⟩ := List.mem_map.mp hmove
    rw [(read_iff.mp (written name hmem)).2]
    rfl
  have hiff := foldl_handOn_iff hthere (by simpa [moves, Function.comp_def] using files)
    (by simpa [moves, Function.comp_def] using targets)
  have hread : ∀ name ∈ s.outputs.keys, (after.disk.read (target name) = .ok (content name) ↔
      (moves start.disk file target s.outputs.keys).foldl handOn start.disk.fileAt
        (start.disk.leads (target name)) = start.disk.fileAt (start.disk.leads (file name))) := by
    intro name hmem
    obtain ⟨e, he, rfl⟩ := List.mem_map.mp hmem
    rw [read_iff, hgrown.leads, hfiles, (read_iff.mp (written e.1 hmem)).2]
    exact and_iff_right (hreached e he)
  have hordered := pairwise_iff_of_ascending (R := fun name later =>
    start.disk.leads (target name) ≠ start.disk.leads (file later)) ascending
  rw [← hordered]
  simp only [moves, List.forall_mem_map, List.pairwise_map] at hiff hread
  rw [← hiff]
  exact forall₂_congr hread

/-! A script that writes the files `/one` and `/two`, which are handed on as two outputs. -/
namespace Pair

def left : Disk where
  entries := Table.ofList [("/", .directory), ("/one", .file "1".toUTF8 false),
    ("/two", .file "2".toUTF8 false)]
  cwd := "/"

def writer : Host where
  environment := .empty
  run _ _ := (.ok ⟨.exit 0, .empty, .empty⟩, left)

/-- The file and the target of an output, and what the file holds. -/
structure Share where
  file : String
  target : String
  content : ByteArray

def one (target : String) : Share := ⟨"/one", target, "1".toUTF8⟩

def two (target : String) : Share := ⟨"/two", target, "2".toUTF8⟩

structure Plan where
  first : Share
  second : Share

variable (plan : Plan)

def Share.params (share : Share) : Value :=
  .map (Table.ofList [("file", .str share.file), ("target", .str share.target)])

def Share.output (share : Share) : Output :=
  ⟨.file, some (.str share.file), .str share.target, false⟩

def Plan.params : Value :=
  .map (Table.ofList [("script", .str "generate"),
    ("outputs", .map (Table.ofList
      [("first", plan.first.params), ("second", plan.second.params)]))])

def Plan.job : Job where
  interpreter := []
  script := .str "generate"
  cwd := none
  inputs := .empty
  outputs := ⟨[("first", plan.first.output), ("second", plan.second.output)]⟩

def Plan.share (name : String) : Share := if name = "first" then plan.first else plan.second

/-- A run on the disk that the script has not written to yet. -/
def Plan.run (ctx : Context) : EStateM.Result Failure Bench Unit :=
  plan.job.execute ctx ⟨.of 0 true, 2⟩ writer { disk := .empty }

/-- Whether a run succeeds, and what it ends with passes a test. -/
def Plan.runsAnd (test : Disk → Bool) : Bool :=
  okAnd (parse plan.params) (· = plan.job) &&
  okAnd (Context.build (plan.job.toModule "pair") "pair" {} .empty {} .empty) fun ctx =>
    okAnd (plan.job.command ctx) (fun _ => true) &&
    decide (∀ e ∈ plan.job.outputs.entries, e.2.mode = .file ∧ e.2.isOptional = false ∧
      plan.job.fileOf? ctx e.2 = some (plan.share e.1).file ∧
      ctx.outputs.str? e.1 = some (plan.share e.1).target) &&
    Build.doneAnd (plan.run ctx) fun _ after => test after.disk

/-- A context in which the outputs of a plan are handed over. -/
structure Plan.Runs (ctx : Context) (after : Bench) : Prop where
  parsed : parse plan.params = .ok plan.job
  built : Context.build (plan.job.toModule "pair") "pair" {} .empty {} .empty = .ok ctx
  handover : plan.job.Handover ctx writer .empty left (fun name => (plan.share name).file)
    (fun name => (plan.share name).target) fun name => (plan.share name).content
  ran : plan.run ctx = .ok () after

theorem Plan.exists_of_runsAnd {test : Disk → Bool} (h : plan.runsAnd test = true)
    (hfirst : left.read plan.first.file = .ok plan.first.content)
    (hsecond : left.read plan.second.file = .ok plan.second.content)
    (files : left.leads plan.first.file ≠ left.leads plan.second.file)
    (targets : left.leads plan.first.target ≠ left.leads plan.second.target) :
    ∃ ctx after, plan.Runs ctx after ∧ test after.disk = true := by
  simp only [Plan.runsAnd, Bool.and_eq_true] at h
  obtain ⟨hparse, hbuild⟩ := h
  obtain ⟨s, hparse, hjob⟩ := exists_of_okAnd hparse
  obtain rfl := of_decide_eq_true hjob
  obtain ⟨ctx, hctx, hchecks⟩ := exists_of_okAnd hbuild
  simp only [Bool.and_eq_true, decide_eq_true_eq] at hchecks
  obtain ⟨⟨hcommand, houtputs⟩, hrun⟩ := hchecks
  obtain ⟨command, hcommand, -⟩ := exists_of_okAnd hcommand
  obtain ⟨_, after, hrun, htest⟩ := Build.exists_of_doneAnd hrun
  have hkeys : plan.job.outputs.keys = ["first", "second"] := rfl
  refine ⟨ctx, after, ⟨hparse, hctx, ⟨fun e he => ?_, ⟨command, _, hcommand, rfl⟩,
    isTree_spec (by decide +kernel), ?_, ?_, ?_⟩, hrun⟩, htest⟩
  · obtain ⟨hmode, hmandatory, hfile, htarget⟩ := houtputs e he
    exact ⟨hmode, hmandatory, hfile, htarget⟩
  · rw [hkeys]
    simpa [Plan.share] using ⟨hfirst, hsecond⟩
  · rw [hkeys]
    simpa [Plan.share] using files
  · rw [hkeys]
    simpa [Plan.share] using targets

/-- The first output makes room before the second takes its place. -/
def vacating : Plan := ⟨two "/three", one "/two"⟩

/-- The first output takes the place of the second before that one is moved. -/
def overwriting : Plan := ⟨one "/two", two "/three"⟩

end Pair

/-- Both outputs arrive if the first makes room for the second. -/
theorem vacated_place_filled : ∃ ctx after, Pair.vacating.Runs ctx after ∧
    after.disk.read "/three" = .ok "2".toUTF8 ∧ after.disk.read "/two" = .ok "1".toUTF8 := by
  have hrun : Pair.vacating.runsAnd (fun _ => true) = true := by decide +kernel
  obtain ⟨ctx, after, hruns, -⟩ := Pair.vacating.exists_of_runsAnd hrun rfl rfl
    (by decide +kernel) (by decide +kernel)
  have hread := (outputs_collected_iff hruns.parsed hruns.handover hruns.ran).mpr
    (by decide +kernel)
  exact ⟨ctx, after, hruns, hread "first" (by decide), hread "second" (by decide)⟩

/-- If it takes its place instead, the file of the second is overwritten: its target holds what was
written for the first, and the target of the first holds nothing. -/
theorem waiting_file_overwritten : ∃ ctx after, Pair.overwriting.Runs ctx after ∧
    after.disk.exists? "/two" = false ∧
    (after.disk.read "/three").toOption = some "1".toUTF8 := by
  have hrun : Pair.overwriting.runsAnd (fun disk => !disk.exists? "/two" &&
      (disk.read "/three").toOption = some "1".toUTF8) = true := by
    decide +kernel
  obtain ⟨ctx, after, hruns, htest⟩ := Pair.overwriting.exists_of_runsAnd hrun rfl rfl
    (by decide +kernel) (by decide +kernel)
  simp only [Bool.and_eq_true, Bool.not_eq_true', decide_eq_true_eq] at htest
  exact ⟨ctx, after, hruns, htest⟩

end Toolflow.Modules.Script.Job
