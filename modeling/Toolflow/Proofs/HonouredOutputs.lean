import Toolflow.Proofs.VprJobs

/-! Where the outputs of VPR's jobs end up.

The files of a job have names of their own, so each lies at a place of its own when VPR is done. If
the outputs are bound to places of their own too, and none to the place of another's file, then no
move disturbs another one and each output is what VPR wrote for it. There are two exceptions. A
packed netlist is not moved: VPR runs in the directory of the path that it is bound to, and leaves
it there under its own name. And the log of placing and of routing is renamed last, to a name of
its own in the directory, whatever has been put there. -/
namespace Toolflow.Modules.Vpr

variable {ctx : Context} {host : Host} {job : Job} {eblif stem dir : String}
  {start left ready after : Disk} {content : String → ByteArray}

/-! ### Files of their own -/

theorem Job.map_files (job : Job) (stem : String) :
    (job.files stem).map (·.1) = (job.files "").map (·.1) := by
  cases job <;> rfl

/-- Each product has a file. -/
theorem Job.exists_file (job : Job) {name : String} {d : Declared}
    (hd : d ∈ (job.interface name).produces) (stem : String) :
    ∃ file ∈ job.files stem, file.1 = d.name := by
  rw [(job.interface_lists name).2.2] at hd
  have hall : ∀ d ∈ (job.interface "").produces, d.name ∈ (job.files "").map (·.1) := by
    cases job <;> decide
  have hmem := hall d hd
  rw [← job.map_files stem] at hmem
  simpa using hmem

theorem net_mem_files (stem : String) : ("net", stem ++ ".net") ∈ Job.pack.files stem := by
  simp [Job.files]

/-- The last characters of a file name. -/
def ending (file : String) : List Char := file.toList.reverse.take 4

theorem ending_append (stem : String) {tail : String} (h : 4 ≤ tail.toList.length) :
    ending (stem ++ tail) = ending tail := by
  unfold ending
  rw [String.toList_append, List.reverse_append,
    List.take_append_of_le_length (by rwa [List.length_reverse])]

theorem append_ne {stem tail text : String} (long : 4 ≤ tail.toList.length)
    (h : ending tail ≠ ending text) : stem ++ tail ≠ text := fun heq =>
  h ((ending_append stem long).symm.trans (congrArg ending heq))

/-- The files of a job have different names, for different purposes. -/
theorem Job.files_nodup (job : Job) (stem : String) : ((job.files stem).map (·.2)).Nodup := by
  cases job with
  | pack =>
    refine List.Nodup.concat (l := [logName, Packing.timingReport, Packing.utilizationReport])
      (a := stem ++ ".net") (fun hmem => ?_) (by decide)
    have hending := List.mem_map_of_mem (f := ending) hmem
    rw [ending_append stem (by decide)] at hending
    exact absurd hending (by decide)
  | _ =>
    refine List.Nodup.of_map ending ?_
    simp (disch := decide) only [Job.files, List.map_cons, List.map_nil, ending_append]
    decide

theorem Job.purposes_nodup (job : Job) (stem : String) : ((job.files stem).map (·.1)).Nodup := by
  rw [job.map_files]
  cases job <;> decide

/-- A name for a file. -/
def IsName (file : String) : Prop := Pathname.Component file.toList ∧ file ≠ ".."

theorem isName_append {s tail : String} (hs : '/' ∉ s.toList) (whole : '/' ∉ tail.toList)
    (long : 2 < tail.toList.length) : IsName (s ++ tail) := by
  have hne : ∀ text : List Char, text.length ≤ 2 → (s ++ tail).toList ≠ text := by
    rintro text htext rfl
    rw [String.toList_append, List.length_append] at htext
    omega
  refine ⟨⟨?_, ?_⟩, fun heq => hne ['.', '.'] (by decide) (by rw [heq]; rfl)⟩
  · simpa only [Pathname.isComponent, Bool.and_eq_true, bne_iff_ne] using
      ⟨hne [] (by decide), hne ['.'] (by decide)⟩
  · rw [String.toList_append, List.mem_append, not_or]
    exact ⟨hs, whole⟩

theorem isName_fixed {file : String} (whole : '/' ∉ file.toList) (long : 2 < file.toList.length) :
    IsName file := by
  have hname := isName_append (s := "") (by decide) whole long
  rwa [String.empty_append] at hname

theorem Job.isName_of_mem (whole : '/' ∉ stem.toList) {file : String × String}
    (h : file ∈ job.files stem) : IsName file.2 := by
  have hall : ∀ file ∈ job.files stem, IsName file.2 := by
    cases job with
    | pack =>
      simp only [Job.files, List.forall_mem_cons]
      exact ⟨isName_fixed (by decide) (by decide), isName_fixed (by decide) (by decide),
        isName_fixed (by decide) (by decide), isName_append whole (by decide) (by decide),
        List.forall_mem_nil _⟩
    | place =>
      simp only [Job.files, List.forall_mem_cons]
      exact ⟨isName_append whole (by decide) (by decide), isName_fixed (by decide) (by decide),
        List.forall_mem_nil _⟩
    | route =>
      simp only [Job.files, List.forall_mem_cons]
      exact ⟨isName_append whole (by decide) (by decide), isName_fixed (by decide) (by decide),
        List.forall_mem_nil _⟩
    | analysis =>
      simp only [Job.files, List.forall_mem_cons]
      exact ⟨isName_append whole (by decide) (by decide),
        isName_append whole (by decide) (by decide), isName_fixed (by decide) (by decide),
        List.forall_mem_nil _⟩
  exact hall file h

theorem leads_join_ne (hdir : dir.isEmpty = false) {file other : String} (hfile : IsName file)
    (hother : IsName other) (hne : file ≠ other) (disk : Disk) :
    disk.leads (Pathname.join dir file) ≠ disk.leads (Pathname.join dir other) := by
  rw [disk.leads_join hdir hfile.1 hfile.2, disk.leads_join hdir hother.1 hother.2]
  exact fun heq => hne (Disk.child_injective _ heq)

/-- Files of different purpose are at different places. -/
theorem Job.leads_ne (hdir : dir.isEmpty = false) (whole : '/' ∉ stem.toList) (disk : Disk)
    {file other : String × String} (hfile : file ∈ job.files stem) (hother : other ∈ job.files stem)
    (hne : file.1 ≠ other.1) :
    disk.leads (Pathname.join dir file.2) ≠ disk.leads (Pathname.join dir other.2) := by
  refine leads_join_ne hdir (job.isName_of_mem whole hfile) (job.isName_of_mem whole hother)
    (fun heq => ?_) disk
  exact hne (congrArg Prod.fst (List.inj_on_of_nodup_map (job.files_nodup stem) hfile hother heq))

/-- The name that the log of placing and of routing is given is the name of no file. -/
theorem Job.ownLog_ne {log : String × String} (own : job.ownLog? = some log)
    {file : String × String} (hfile : file ∈ job.files stem) : file.2 ≠ log.2 := by
  have hall : ∀ file ∈ job.files stem, file.2 ≠ log.2 := by
    cases job with
    | place =>
      cases own
      simp only [Job.files, List.forall_mem_cons]
      exact ⟨append_ne (by decide) (by decide), by decide, List.forall_mem_nil _⟩
    | route =>
      cases own
      simp only [Job.files, List.forall_mem_cons]
      exact ⟨append_ne (by decide) (by decide), by decide, List.forall_mem_nil _⟩
    | _ => cases own
  exact hall file hfile

theorem Job.isName_own {log : String × String} (own : job.ownLog? = some log) : IsName log.2 := by
  cases job with
  | place =>
    cases own
    exact isName_fixed (by decide) (by decide)
  | route =>
    cases own
    exact isName_fixed (by decide) (by decide)
  | _ => cases own

/-! ### Deliveries -/

theorem Job.goal?_own {log : String × String} (own : job.ownLog? = some log) (ctx : Context)
    (dir : String) : job.goal? ctx dir log.1 = some (Pathname.join dir log.2) := by
  rw [Job.goal?, own]
  exact if_pos rfl

/-- What is wanted at an output is wanted where the output is bound. -/
theorem Job.goal?_of_ne {name : String} (h : ∀ log, job.ownLog? = some log → name ≠ log.1)
    (ctx : Context) (dir : String) : job.goal? ctx dir name = ctx.outputs.str? name := by
  unfold Job.goal?
  split
  · rename_i log own
    rw [if_neg (h log own)]
  · rfl

theorem Job.mem_deliveries {d : (String × String) × String} :
    d ∈ job.deliveries ctx stem dir ↔ d.1 ∈ job.files stem ∧ ¬ (job = .pack ∧ d.1.1 = "net") ∧
      job.goal? ctx dir d.1.1 = some d.2 := by
  obtain ⟨file, goal⟩ := d
  unfold Job.deliveries
  rw [List.mem_filterMap]
  constructor
  · rintro ⟨other, hmem, hsome⟩
    split at hsome
    · cases hsome
    · rename_i hmoved
      obtain ⟨_, hgoal, heq⟩ := Option.map_eq_some_iff.mp hsome
      cases heq
      exact ⟨hmem, hmoved, hgoal⟩
  · rintro ⟨hmem, hmoved, hgoal⟩
    exact ⟨file, hmem, by rw [if_neg hmoved, hgoal]; rfl⟩

/-- Each purpose has one delivery. -/
theorem Job.deliveries_pairwise (job : Job) (ctx : Context) (stem dir : String) :
    (job.deliveries ctx stem dir).Pairwise fun d e => d.1.1 ≠ e.1.1 := by
  unfold Job.deliveries
  refine List.Pairwise.filterMap _ ?_ (List.pairwise_map.mp (job.purposes_nodup stem))
  intro file other hne d hd e he
  split at hd
  · cases hd
  · split at he
    · cases he
    · obtain ⟨_, -, rfl⟩ := Option.map_eq_some_iff.mp hd
      obtain ⟨_, -, rfl⟩ := Option.map_eq_some_iff.mp he
      exact hne

/-- The log that placing and routing name themselves is moved last. -/
theorem Job.deliveries_own {log : String × String} (own : job.ownLog? = some log) (ctx : Context)
    (stem dir : String) : ∃ before, job.deliveries ctx stem dir =
      before ++ [((log.1, logName), Pathname.join dir log.2)] := by
  have hnet : ¬ (job = .pack ∧ log.1 = "net") := by
    rintro ⟨rfl, -⟩
    cases own
  obtain ⟨others, hfiles⟩ : ∃ others, job.files stem = others ++ [(log.1, logName)] := by
    cases job with
    | place =>
      cases own
      exact ⟨[("place", stem ++ ".place")], rfl⟩
    | route =>
      cases own
      exact ⟨[("route", stem ++ ".route")], rfl⟩
    | _ => cases own
  refine ⟨others.filterMap fun file =>
    if job = .pack ∧ file.1 = "net" then none else (job.goal? ctx dir file.1).map (file, ·), ?_⟩
  rw [Job.deliveries, hfiles, List.filterMap_append]
  simp only [List.filterMap_cons, List.filterMap_nil, if_neg hnet, Job.goal?_own own,
    Option.map_some]

/-- The outputs are bound to single pathnames that files can be given, at places of their own, and
none to the place of a file that VPR writes for another purpose. -/
structure Job.Bound (job : Job) (ctx : Context) (stem dir : String) (left : Disk) : Prop where
  single : ∀ file ∈ job.files stem, ∀ v, ctx.outputs.get? file.1 = some v → ∃ path, v = .str path
  room : ∀ file ∈ job.files stem, ∀ goal, job.goal? ctx dir file.1 = some goal → left.Admits goal
  apart : ∀ file ∈ job.files stem, ∀ path, ctx.outputs.str? file.1 = some path →
    ∀ other ∈ job.files stem, ∀ elsewhere, ctx.outputs.str? other.1 = some elsewhere →
      other.1 ≠ file.1 → left.leads path ≠ left.leads elsewhere
  clear : ∀ file ∈ job.files stem, ∀ path, ctx.outputs.str? file.1 = some path →
    ∀ other ∈ job.files stem, other.1 ≠ file.1 →
      left.leads path ≠ left.leads (Pathname.join dir other.2)

/-- What is wanted of VPR's files is there to be moved. -/
theorem Job.Tidies.read (tidy : job.Tidies ctx stem dir left ready)
    (writes : job.Writes host eblif stem dir start left content) (hdir : dir.isEmpty = false)
    (whole : '/' ∉ stem.toList) {file : String × String} (hfile : file ∈ job.files stem)
    {goal : String} (hgoal : job.goal? ctx dir file.1 = some goal) :
    ready.read (Pathname.join dir file.2) = .ok (content file.1) := by
  obtain ⟨hpath, hcontent⟩ := Disk.read_iff.mp (writes.written file hfile)
  refine Disk.read_iff.mpr ⟨tidy.grown.reaches hpath, ?_⟩
  rw [tidy.grown.leads, tidy.kept _ fun other hother hnone => ?_, hcontent]
  refine job.leads_ne hdir whole left hfile hother fun heq => ?_
  rw [← heq, hgoal] at hnone
  cases hnone

/-- All that is moved can be moved. -/
theorem Job.Tidies.movable (tidy : job.Tidies ctx stem dir left ready)
    (writes : job.Writes host eblif stem dir start left content) (hdir : dir.isEmpty = false)
    (whole : '/' ∉ stem.toList) (bound : job.Bound ctx stem dir left) :
    ready.Movable (job.moves ctx stem dir) where
  tree := tidy.grown.tree
  there move hmove := by
    obtain ⟨d, hd, rfl⟩ := List.mem_map.mp hmove
    obtain ⟨hfile, -, hgoal⟩ := Job.mem_deliveries.mp hd
    exact ⟨_, tidy.read writes hdir whole hfile hgoal⟩
  room move hmove := by
    obtain ⟨d, hd, rfl⟩ := List.mem_map.mp hmove
    obtain ⟨hfile, -, hgoal⟩ := Job.mem_deliveries.mp hd
    exact tidy.grown.admits tidy.fixed (bound.room _ hfile _ hgoal)
  apart := by
    simp only [Job.moves, List.map_map, List.Nodup, List.pairwise_map, Function.comp_def,
      tidy.grown.leads]
    refine (job.deliveries_pairwise ctx stem dir).imp_of_mem fun hd he hne => ?_
    exact job.leads_ne hdir whole left (Job.mem_deliveries.mp hd).1 (Job.mem_deliveries.mp he).1 hne

/-- Nothing is moved to where a file of another purpose lies. -/
theorem Job.Bound.clear_goal (bound : job.Bound ctx stem dir left) (hdir : dir.isEmpty = false)
    (whole : '/' ∉ stem.toList) {file other : String × String} (hfile : file ∈ job.files stem)
    {goal : String} (hgoal : job.goal? ctx dir file.1 = some goal) (hother : other ∈ job.files stem)
    (hne : other.1 ≠ file.1) : left.leads goal ≠ left.leads (Pathname.join dir other.2) := by
  by_cases hown : ∃ log, job.ownLog? = some log ∧ file.1 = log.1
  · obtain ⟨log, own, hpurpose⟩ := hown
    rw [hpurpose, Job.goal?_own own] at hgoal
    obtain rfl := Option.some.inj hgoal
    exact leads_join_ne hdir (Job.isName_own own) (job.isName_of_mem whole hother)
      (job.ownLog_ne own hother).symm left
  · rw [job.goal?_of_ne fun log own heq => hown ⟨log, own, heq⟩] at hgoal
    exact bound.clear _ hfile _ hgoal _ hother hne

/-- What is moved arrives, if nothing else is moved there behind it. -/
theorem Job.Tidies.arrives (tidy : job.Tidies ctx stem dir left ready)
    (writes : job.Writes host eblif stem dir start left content) (hdir : dir.isEmpty = false)
    (whole : '/' ∉ stem.toList) (bound : job.Bound ctx stem dir left)
    (moved : ready.Moved after (job.moves ctx stem dir)) {d : (String × String) × String}
    {before behind : List ((String × String) × String)}
    (hsplit : job.deliveries ctx stem dir = before ++ d :: behind)
    (hlast : ∀ e ∈ behind, left.leads d.2 ≠ left.leads e.2) :
    after.read d.2 = .ok (content d.1.1) := by
  have hpairwise := job.deliveries_pairwise ctx stem dir
  have hmem : ∀ e, e ∈ before ∨ e = d ∨ e ∈ behind → e.1 ∈ job.files stem ∧
      job.goal? ctx dir e.1.1 = some e.2 := fun e he => by
    have hdelivery : e ∈ job.deliveries ctx stem dir := by
      rw [hsplit]
      simpa using he
    exact ⟨(Job.mem_deliveries.mp hdelivery).1, (Job.mem_deliveries.mp hdelivery).2.2⟩
  rw [hsplit, List.pairwise_append, List.pairwise_cons] at hpairwise
  obtain ⟨-, ⟨hbehind, -⟩, hbefore⟩ := hpairwise
  obtain ⟨hfile, hgoal⟩ := hmem d (Or.inr (Or.inl rfl))
  rw [Job.moves, hsplit, List.map_append, List.map_cons] at moved
  refine moved.arrives (tidy.grown.admits tidy.fixed (bound.room _ hfile _ hgoal)) ?_ ?_
    (tidy.read writes hdir whole hfile hgoal)
  · intro move hmove
    obtain ⟨e, he, rfl⟩ := List.mem_map.mp hmove
    obtain ⟨hefile, hegoal⟩ := hmem e (Or.inl he)
    have hne := hbefore e he d List.mem_cons_self
    rw [tidy.grown.leads, tidy.grown.leads, tidy.grown.leads]
    exact ⟨job.leads_ne hdir whole left hfile hefile hne.symm,
      (bound.clear_goal hdir whole hefile hegoal hfile hne.symm).symm⟩
  · intro move hmove
    obtain ⟨e, he, rfl⟩ := List.mem_map.mp hmove
    obtain ⟨hefile, hegoal⟩ := hmem e (Or.inr (Or.inr he))
    rw [tidy.grown.leads, tidy.grown.leads, tidy.grown.leads]
    exact ⟨bound.clear_goal hdir whole hfile hgoal hefile (hbehind e he).symm, hlast e he⟩

/-- Where the packed netlist is wanted everything stays as VPR has left it. -/
theorem Job.Tidies.net_untouched {net : String}
    (tidy : Job.pack.Tidies ctx stem dir left ready)
    (bound : Job.pack.Bound ctx stem dir left) (hnet : ctx.outputs.str? "net" = some net)
    (moved : ready.Moved after (Job.pack.moves ctx stem dir)) :
    after.fileAt (left.leads net) = left.fileAt (left.leads net) := by
  have hmem := net_mem_files stem
  have hclear : ∀ file ∈ Job.pack.files stem, file.1 ≠ "net" →
      left.leads net ≠ left.leads (Pathname.join dir file.2) := bound.clear _ hmem _ hnet
  have hstays : after.fileAt (left.leads net) = ready.fileAt (left.leads net) := by
    refine moved.untouched (fun move hmove => ?_) fun move hmove => ?_
    · obtain ⟨d, hd, rfl⟩ := List.mem_map.mp hmove
      obtain ⟨hfile, hne, -⟩ := Job.mem_deliveries.mp hd
      rw [tidy.grown.leads]
      exact hclear _ hfile fun heq => hne ⟨rfl, heq⟩
    · obtain ⟨d, hd, rfl⟩ := List.mem_map.mp hmove
      obtain ⟨hfile, hne, hgoal⟩ := Job.mem_deliveries.mp hd
      rw [tidy.grown.leads]
      exact bound.apart _ hmem _ hnet _ hfile _ hgoal fun heq => hne ⟨rfl, heq⟩
  refine hstays.trans (tidy.kept _ fun file hfile hnone => hclear file hfile fun heq => ?_)
  have hbound : Job.pack.goal? ctx dir "net" = some net := hnet
  rw [heq, hbound] at hnone
  cases hnone

/-- The packed netlist is where it is wanted if it is wanted under the name that VPR gives it; else
there is what was there before. -/
theorem Job.Tidies.net_found {net : String} (tidy : Job.pack.Tidies ctx stem dir left ready)
    (writes : Job.pack.Writes host eblif stem dir start left content)
    (whole : '/' ∉ stem.toList) (hdir : Pathname.directoryOf net = dir)
    (bound : Job.pack.Bound ctx stem dir left) (hnet : ctx.outputs.str? "net" = some net)
    (moved : ready.Moved after (Job.pack.moves ctx stem dir)) :
    (Pathname.fileName? net = some (stem ++ ".net") → after.read net = .ok (content "net")) ∧
      (Pathname.fileName? net ≠ some (stem ++ ".net") →
        after.fileAt (left.leads net) = start.fileAt (left.leads net)) := by
  have hmem := net_mem_files stem
  have hroom := bound.room _ hmem net hnet
  have hstays := tidy.net_untouched bound hnet moved
  have hempty : dir.isEmpty = false := hdir ▸ Pathname.isEmpty_directoryOf net
  refine ⟨fun hname => ?_, fun hother => ?_⟩
  · have hread := (Disk.read_iff.mp (writes.written _ hmem)).2
    refine Disk.read_iff.mpr ⟨moved.grown.reaches (tidy.grown.reaches hroom.toReaches), ?_⟩
    rw [moved.grown.leads, tidy.grown.leads, hstays,
      Disk.leads_alike (Pathname.alike_fileName hname), hdir]
    exact hread
  · rw [hstays]
    refine writes.kept _ fun file hfile heq => ?_
    by_cases hpurpose : file.1 = "net"
    · -- The netlist would be wanted in VPR's directory, under a name that is not VPR's.
      obtain rfl := List.inj_on_of_nodup_map (Job.pack.purposes_nodup stem) hfile hmem hpurpose
      obtain ⟨_, name, -, -, hlast, hparent, -⟩ := writes.tree.exists_of_admits hroom
      have hname := Pathname.fileName?_of_getLast? hlast hparent
      obtain ⟨part, hpart, rfl⟩ := Disk.component_of_mem_names (List.mem_of_getLast? hlast)
      have hisName : IsName (String.ofList part) := ⟨by rwa [String.toList_ofList], hparent⟩
      rw [Disk.leads_alike (Pathname.alike_fileName hname), hdir] at heq
      exact leads_join_ne hempty hisName (Job.pack.isName_of_mem whole hmem)
        (fun hsame => hother (hname.trans (congrArg some hsame))) left heq
    · exact bound.clear _ hmem _ hnet file hfile hpurpose heq

/-- A packed netlist that the user binds to another name than VPR gives it. -/
def Job.Misnames (job : Job) (ctx : Context) (stem name path : String) : Prop :=
  job = .pack ∧ name = "net" ∧ ctx.isExplicit name = true ∧
    Pathname.fileName? path ≠ some (stem ++ ".net")

/-- An output at the place to which placing or routing moves the log. -/
def Job.Buries (job : Job) (disk : Disk) (dir path : String) (log : String × String) : Prop :=
  job.ownLog? = some log ∧ disk.leads path = disk.leads (Pathname.join dir log.2)

/-- An output that is moved is what VPR wrote for it, unless the log is moved there too. -/
theorem Job.Tidies.output_found (tidy : job.Tidies ctx stem dir left ready)
    (writes : job.Writes host eblif stem dir start left content) (hdir : dir.isEmpty = false)
    (whole : '/' ∉ stem.toList) (bound : job.Bound ctx stem dir left)
    (moved : ready.Moved after (job.moves ctx stem dir)) {file : String × String} {path : String}
    (hdelivery : (file, path) ∈ job.deliveries ctx stem dir)
    (hpath : ctx.outputs.str? file.1 = some path) (free : ∀ log, ¬ job.Buries left dir path log) :
    after.read path = .ok (content file.1) := by
  obtain ⟨before, behind, hsplit⟩ := List.append_of_mem hdelivery
  refine tidy.arrives writes hdir whole bound moved hsplit fun e he => ?_
  have hpairwise := job.deliveries_pairwise ctx stem dir
  rw [hsplit, List.pairwise_append, List.pairwise_cons] at hpairwise
  have hne : e.1.1 ≠ file.1 := (hpairwise.2.1.1 e he).symm
  have hmem : e ∈ job.deliveries ctx stem dir := by
    rw [hsplit]
    exact List.mem_append_right _ (List.mem_cons_of_mem _ he)
  obtain ⟨hother, -, hgoal⟩ := Job.mem_deliveries.mp hmem
  by_cases hown : ∃ log, job.ownLog? = some log ∧ e.1.1 = log.1
  · obtain ⟨log, own, hlog⟩ := hown
    rw [hlog, Job.goal?_own own] at hgoal
    exact fun heq => free log ⟨own, heq.trans (by rw [Option.some.inj hgoal])⟩
  · rw [Job.goal?_of_ne fun log own heq => hown ⟨log, own, heq⟩] at hgoal
    exact bound.apart _ (Job.mem_deliveries.mp hdelivery).1 _ hpath _ hother _ hgoal hne

/-- Where the log is moved there is the log. -/
theorem Job.Tidies.log_found (tidy : job.Tidies ctx stem dir left ready)
    (writes : job.Writes host eblif stem dir start left content) (hdir : dir.isEmpty = false)
    (whole : '/' ∉ stem.toList) (bound : job.Bound ctx stem dir left)
    (moved : ready.Moved after (job.moves ctx stem dir)) {path : String} {log : String × String}
    (room : left.Admits path) (buried : job.Buries left dir path log) :
    after.read path = .ok (content log.1) := by
  obtain ⟨own, hplace⟩ := buried
  obtain ⟨before, hsplit⟩ := Job.deliveries_own own ctx stem dir
  have hlog := tidy.arrives writes hdir whole bound moved hsplit (List.forall_mem_nil _)
  refine Disk.read_iff.mpr ⟨moved.grown.reaches (tidy.grown.reaches room.toReaches), ?_⟩
  rw [moved.grown.leads, tidy.grown.leads, hplace, ← tidy.grown.leads, ← moved.grown.leads]
  exact (Disk.read_iff.mp hlog).2

section
variable {m : ToolModule} {args : ModuleArgs} {stage : String} {inputs : StageInputs}
  {env : Environment} {roots : Roots} {disk : Disk} {bench : Bench}

theorem Job.Starts.whole (starts : job.Starts ctx disk start eblif stem) :
    '/' ∉ stem.toList := by
  obtain ⟨name, before, hbody, -, -, -, rest, rfl⟩ := Pathname.exists_of_fileStem? starts.stemmed
  exact fun hmem => (Pathname.ends_of_bodyParts hbody).component.whole (List.mem_append_left _ hmem)

theorem Job.Starts.cwd_eq (starts : job.Starts ctx disk start eblif stem) :
    start.cwd = disk.cwd := by
  have hprepared := starts.prepared
  unfold Job.prepared at hprepared
  split at hprepared
  · obtain ⟨_, _, _, _, _, _, rfl⟩ := Disk.write_eq_ok hprepared
    rfl
  · cases hprepared
    rfl

/-- No product is a log that placing or routing names itself. -/
theorem Job.product_ne {name : String} {d : Declared} (hd : d ∈ (job.interface name).produces)
    {log : String × String} (own : job.ownLog? = some log) : d.name ≠ log.1 := by
  rw [(job.interface_lists name).2.2] at hd
  have hall : ∀ d ∈ (job.interface "").produces, d.name ≠ log.1 := by
    cases job with
    | place =>
      cases own
      decide
    | route =>
      cases own
      decide
    | _ => cases own
  exact hall d hd

/-- An output is for one of VPR's files, and not for a log that the job names itself. -/
theorem Job.output_spec (made : job.make args = .ok m)
    (built : Context.build m stage inputs env roots disk = .ok ctx) {name : String} {v : Value}
    (hv : ctx.outputs.get? name = some v) (stem : String) :
    (∃ file ∈ job.files stem, file.1 = name) ∧
      ∀ log, job.ownLog? = some log → name ≠ log.1 := by
  obtain ⟨d, hd, rfl⟩ := Context.build_product built hv
  rw [Job.io_eq made] at hd
  exact ⟨job.exists_file hd stem, fun _ own => Job.product_ne hd own⟩

/-- A packed netlist that the user does not bind has the name that VPR gives it. -/
theorem fileName?_of_default (built : Context.build m stage inputs env roots disk = .ok ctx)
    (made : Job.pack.make args = .ok m) (rooted : Pathname.isAbsolute disk.cwd = true)
    (starts : Job.pack.Starts ctx disk start eblif stem) {net : String}
    (hnet : ctx.outputs.get? "net" = some (.str net)) (implicit : ctx.isExplicit "net" = false) :
    Pathname.fileName? net = some (stem ++ ".net") := by
  have distinct : m.io.Distinct := Job.io_eq made ▸ Job.pack.distinct _
  have complete := Context.build_complete distinct rooted built
  have free : Reference.TokenFree eblif.toList :=
    complete.closedTakes _ _ starts.netlist _ (by simp [Value.strings])
  have beside := starts.beside_extension "net" rfl (by decide)
  cases made
  have hdefault := Context.build_default distinct.produces built
    (d := .required "net") List.mem_cons_self (by decide) implicit
    (fun base hbase => by
      simp only [Packing.outputs, hbase, Bindings.requirePath_ok starts.netlist]
      rfl)
    (by simp [Table.ofList, Table.get?_insert, Declared.required])
    (beside.tokenFree free (by decide))
  have hname := Value.str.inj (Option.some.inj (hnet.symm.trans hdefault))
  refine Pathname.fileName?_of_getLast? ?_ ?_
  · rw [hname, Pathname.names_absoluteText, List.getLast?_append, beside.getLast?]
    rfl
  · exact (Job.pack.isName_of_mem starts.whole (net_mem_files stem)).2

/-- If VPR does its job, then so does the module. Each output is what VPR wrote for it, wherever it
is bound, but for a packed netlist under another name, where everything is left as it was, and for a
placement or a routing at the place of the log, where the log is. -/
theorem outputs_honoured (made : job.make args = .ok m)
    (built : Context.build m stage inputs env roots bench.disk = .ok ctx)
    (starts : job.Starts ctx bench.disk start eblif stem)
    (writes : job.Writes host eblif stem (job.directory ctx eblif) start left content)
    (bound : job.Bound ctx stem (job.directory ctx eblif) left) (p : Progress) :
    ∃ after, m.execute ctx p host bench = .ok () after ∧
      ∀ name v, ctx.outputs.get? name = some v → ∃ path, v = .str path ∧
        (¬ job.Misnames ctx stem name path →
          (∀ log, ¬ job.Buries left (job.directory ctx eblif) path log) →
            after.disk.read path = .ok (content name)) ∧
        (job.Misnames ctx stem name path →
          after.disk.fileAt (left.leads path) = bench.disk.fileAt (left.leads path)) ∧
        ∀ log, job.Buries left (job.directory ctx eblif) path log →
          after.disk.read path = .ok (content log.1) := by
  have hcwd : left.cwd = bench.disk.cwd := writes.cwd.trans starts.cwd_eq
  have rooted : Pathname.isAbsolute bench.disk.cwd = true := hcwd ▸ writes.tree.cwd.isAbsolute
  have hdir : (job.directory ctx eblif).isEmpty = false := Pathname.isEmpty_directoryOf _
  have single : ∀ name v, ctx.outputs.get? name = some v → ∃ path, v = .str path := by
    intro name v hv
    obtain ⟨⟨file, hfile, rfl⟩, -⟩ := Job.output_spec made built hv stem
    exact bound.single file hfile v hv
  obtain ⟨rest, between, hexecute, tidy, hmoves⟩ :=
    Job.runs made built starts rfl writes single rooted p
  obtain ⟨after, hrest, moved⟩ := hmoves host between (tidy.grown.cwd.trans hcwd)
    (tidy.movable writes hdir starts.whole bound)
  refine ⟨after, hexecute.trans hrest, fun name v hv => ?_⟩
  obtain ⟨path, rfl⟩ := single name v hv
  have hpath := Bindings.str?_of_get? hv
  have hnetdir : job = .pack → name = "net" →
      Pathname.directoryOf path = job.directory ctx eblif := by
    rintro rfl rfl
    simp [Job.directory, hpath]
  obtain ⟨⟨file, hfile, rfl⟩, hnolog⟩ := Job.output_spec made built hv stem
  have hgoal : job.goal? ctx (job.directory ctx eblif) file.1 = some path :=
    (Job.goal?_of_ne hnolog ctx _).trans hpath
  refine ⟨path, rfl, fun named free => ?_, fun misnamed => ?_, fun log buried => ?_⟩
  · by_cases hnet : job = .pack ∧ file.1 = "net"
    · have hdirectory := hnetdir hnet.1 hnet.2
      obtain ⟨rfl, hname⟩ := hnet
      rw [hname] at hv hpath named ⊢
      refine (tidy.net_found writes starts.whole hdirectory bound hpath moved).1 ?_
      cases himplicit : ctx.isExplicit "net" with
      | false => exact fileName?_of_default built made rooted starts hv himplicit
      | true => exact not_not.mp fun hother => named ⟨rfl, rfl, himplicit, hother⟩
    · have hdelivery : (file, path) ∈ job.deliveries ctx stem (job.directory ctx eblif) :=
        Job.mem_deliveries.mpr ⟨hfile, hnet, hgoal⟩
      exact tidy.output_found writes hdir starts.whole bound moved hdelivery hpath free
  · have hdirectory := hnetdir misnamed.1 misnamed.2.1
    obtain ⟨rfl, hname, -, hother⟩ := misnamed
    rw [hname] at hpath
    rw [← starts.start_eq (by decide)]
    exact (tidy.net_found writes starts.whole hdirectory bound hpath moved).2 hother
  · exact tidy.log_found writes hdir starts.whole bound moved (bound.room _ hfile _ hgoal) buried

end

/-! ### Packing a netlist of the directory `/b` -/

/-- Whether the outputs are bound so that nothing is in the way of anything else. -/
def Job.isBound (job : Job) (ctx : Context) (stem dir : String) (left : Disk) : Bool :=
  (job.files stem).all fun file =>
    (ctx.outputs.get? file.1).all (·.str?.isSome) &&
    (job.goal? ctx dir file.1).all left.canHold &&
    (ctx.outputs.str? file.1).all fun path =>
      (job.files stem).all fun other => other.1 == file.1 ||
        left.leads path != left.leads (Pathname.join dir other.2) &&
        (ctx.outputs.str? other.1).all fun elsewhere => left.leads path != left.leads elsewhere

theorem Job.isBound_spec (h : job.isBound ctx stem dir left = true) :
    job.Bound ctx stem dir left := by
  simp only [Job.isBound, List.all_eq_true, Bool.and_eq_true, Option.all_eq_true, Bool.or_eq_true,
    beq_iff_eq, bne_iff_ne] at h
  refine ⟨fun file hfile v hv => ?_, fun file hfile goal hgoal => ?_,
    fun file hfile path hpath other hother elsewhere helsewhere hne => ?_,
    fun file hfile path hpath other hother hne => ?_⟩
  · obtain ⟨path, hpath⟩ := Option.isSome_iff_exists.mp ((h file hfile).1.1 v hv)
    cases v with
    | str path => exact ⟨path, rfl⟩
    | _ => cases hpath
  · exact Disk.admits_of_canHold ((h file hfile).1.2 goal hgoal)
  · exact (((h file hfile).2 path hpath other hother).resolve_left hne).2 elsewhere helsewhere
  · exact (((h file hfile).2 path hpath other hother).resolve_left hne).1

/-- The disk with a job's files written into a directory; each holds what it is for. -/
def Job.scribble (job : Job) (stem dir : String) (disk : Disk) : Disk :=
  (job.files stem).foldl (fun after file =>
    after.put (disk.leads (Pathname.join dir file.2)) (.file file.1.toUTF8 false)) disk

/-- A VPR that only writes its files, where it is run. -/
def Job.scribe (job : Job) (stem : String) : Host where
  environment := .empty
  run c disk := (.ok ⟨.exit 0, .empty, .empty⟩, job.scribble stem (c.cwd.getD ".") disk)

theorem Job.cwd_scribble (job : Job) (stem dir : String) (disk : Disk) :
    (job.scribble stem dir disk).cwd = disk.cwd := by
  have hfold : ∀ (l : List (String × String)) (after : Disk), (l.foldl (fun after file =>
      after.put (disk.leads (Pathname.join dir file.2)) (.file file.1.toUTF8 false)) after).cwd =
        after.cwd := by
    intro l
    induction l with
    | nil => exact fun _ => rfl
    | cons file rest ih => exact fun after => ih _
  exact hfold _ disk

theorem Job.fileAt_scribble {place : String} {disk : Disk}
    (h : ∀ file ∈ job.files stem, place ≠ disk.leads (Pathname.join dir file.2)) :
    (job.scribble stem dir disk).fileAt place = disk.fileAt place := by
  have hfold : ∀ l : List (String × String),
      (∀ file ∈ l, place ≠ disk.leads (Pathname.join dir file.2)) → ∀ after : Disk,
        (l.foldl (fun after file => after.put (disk.leads (Pathname.join dir file.2))
          (.file file.1.toUTF8 false)) after).fileAt place = after.fileAt place := by
    intro l
    induction l with
    | nil => exact fun _ _ => rfl
    | cons file rest ih =>
      intro hl after
      obtain ⟨hne, hrest⟩ := List.forall_mem_cons.mp hl
      exact (ih hrest _).trans (Disk.fileAt_put_of_ne hne _)
  exact hfold _ h disk

theorem Job.scribe_writes (tree : (job.scribble stem dir start).isTree = true)
    (written : ∀ file ∈ job.files stem,
      ((job.scribble stem dir start).read (Pathname.join dir file.2)).toOption =
        some file.1.toUTF8) :
    job.Writes (job.scribe stem) eblif stem dir start (job.scribble stem dir start)
      String.toUTF8 := by
  have hleads : ∀ path, (job.scribble stem dir start).leads path = start.leads path := by
    intro path
    unfold Disk.leads
    rw [job.cwd_scribble]
  refine ⟨fun c asks => ⟨⟨.exit 0, .empty, .empty⟩, ?_, rfl⟩, Disk.isTree_spec tree,
    job.cwd_scribble stem dir start, fun file hfile => ?_, fun place hplace => ?_⟩
  · show ((.ok ⟨.exit 0, .empty, .empty⟩ : Except FileFault Outcome),
      job.scribble stem (c.cwd.getD ".") start) = _
    rw [asks.cwd, Option.getD_some]
  · have hread := written file hfile
    cases hcontent : (job.scribble stem dir start).read (Pathname.join dir file.2) with
    | error fault =>
      rw [hcontent] at hread
      cases hread
    | ok content =>
      rw [hcontent] at hread
      rw [Option.some.inj hread]
  · exact Job.fileAt_scribble fun file hfile => hleads _ ▸ hplace file hfile

namespace Sample

def disk : Disk where
  entries := Table.ofList [("/", .directory), ("/b", .directory),
    ("/b/s.eblif", .file .empty false), ("/out", .directory)]
  cwd := "/"

def env : Environment := .ofRaw (Table.ofList [("arch_def", .str "a"), ("device", .str "d"),
  ("rr_graph_lookahead_bin", .str "l"), ("rr_graph_real_bin", .str "r"),
  ("vpr_grid_layout_name", .str "g"), ("vpr_place_delay", .str "p")])

def bench : Bench := { disk }

/-- The netlist is packed, and products go where they are bound. -/
def inputs (produces : List (String × String)) : StageInputs where
  takes := Table.ofList [("eblif", .str "/b/s.eblif")]
  produces := Table.ofList (produces.map fun (name, path) => (name, .str path))

/-- A run of packing, with nothing in the way of anything else. -/
structure Runs (produces : List (String × String)) (dir : String) (m : ToolModule) (ctx : Context)
    (after : Bench) : Prop where
  made : Job.pack.make ⟨.null, .empty, "pack"⟩ = .ok m
  built : Context.build m "pack" (inputs produces) env {} bench.disk = .ok ctx
  directory : Job.pack.directory ctx "/b/s.eblif" = dir
  starts : Job.pack.Starts ctx bench.disk disk "/b/s.eblif" "s"
  writes : Job.pack.Writes (Job.pack.scribe "s") "/b/s.eblif" "s" dir disk
    (Job.pack.scribble "s" dir disk) String.toUTF8
  bound : Job.pack.Bound ctx "s" dir (Job.pack.scribble "s" dir disk)
  ran : m.execute ctx ⟨.of 0 true, 2⟩ (Job.pack.scribe "s") bench = .ok () after

/-- Whether packing runs, and its context and the disk that it leaves pass a test. -/
def runsAnd (produces : List (String × String)) (dir : String) (test : Context → Disk → Bool) :
    Bool :=
  (Job.pack.scribble "s" dir disk).isTree &&
  decide (∀ file ∈ Job.pack.files "s",
    ((Job.pack.scribble "s" dir disk).read (Pathname.join dir file.2)).toOption =
      some file.1.toUTF8) &&
  okAnd (Job.pack.make ⟨.null, .empty, "pack"⟩) fun m =>
    okAnd (Context.build m "pack" (inputs produces) env {} disk) fun ctx =>
      Job.pack.directory ctx "/b/s.eblif" == dir &&
      decide (ctx.takes.get? "eblif" = some (.str "/b/s.eblif")) &&
      Job.pack.isBound ctx "s" dir (Job.pack.scribble "s" dir disk) &&
      Build.doneAnd (m.execute ctx ⟨.of 0 true, 2⟩ (Job.pack.scribe "s") bench) fun _ after =>
        test ctx after.disk

theorem exists_of_runsAnd {produces : List (String × String)} {dir : String}
    {test : Context → Disk → Bool} (h : runsAnd produces dir test = true) :
    ∃ m ctx after, Runs produces dir m ctx after ∧ test ctx after.disk = true := by
  simp only [runsAnd, Bool.and_eq_true, decide_eq_true_eq] at h
  obtain ⟨⟨tree, written⟩, h⟩ := h
  obtain ⟨m, made, h⟩ := exists_of_okAnd h
  obtain ⟨ctx, built, h⟩ := exists_of_okAnd h
  simp only [Bool.and_eq_true, decide_eq_true_eq, beq_iff_eq] at h
  obtain ⟨⟨⟨directory, netlist⟩, bound⟩, h⟩ := h
  obtain ⟨_, after, ran, htest⟩ := Build.exists_of_doneAnd h
  exact ⟨m, ctx, after, ⟨made, built, directory,
    ⟨netlist, by decide +kernel, by decide, by decide +kernel, rfl⟩,
    Job.scribe_writes tree written, Job.isBound_spec bound, ran⟩, htest⟩

/-- A report and the log are bound elsewhere. -/
def elsewhere : List (String × String) := [("pack_log", "/out/p.log"), ("util_rpt", "/out/u.rpt")]

/-- The packed netlist is bound to a name of its own. -/
def renamed : List (String × String) := [("net", "/out/x.net")]

end Sample

/-- The report and the log are found where they are bound, and the packed netlist at its default. -/
theorem reports_honoured : ∃ m ctx after, Sample.Runs Sample.elsewhere "/b" m ctx after ∧
    after.disk.read "/out/u.rpt" = .ok "util_rpt".toUTF8 ∧
    after.disk.read "/out/p.log" = .ok "pack_log".toUTF8 ∧
    after.disk.read "/b/s.net" = .ok "net".toUTF8 := by
  have hrun : Sample.runsAnd Sample.elsewhere "/b" (fun ctx _ =>
      decide (ctx.outputs.get? "util_rpt" = some (.str "/out/u.rpt") ∧
        ctx.outputs.get? "pack_log" = some (.str "/out/p.log") ∧
        ctx.outputs.get? "net" = some (.str "/b/s.net"))) = true := by
    decide +kernel
  obtain ⟨m, ctx, after, hruns, htest⟩ := Sample.exists_of_runsAnd hrun
  obtain ⟨hutil, hlog, hnet⟩ := of_decide_eq_true htest
  obtain ⟨last, hlast, hfound⟩ := outputs_honoured hruns.made hruns.built hruns.starts
    (hruns.directory ▸ hruns.writes) (hruns.directory ▸ hruns.bound) ⟨.of 0 true, 2⟩
  cases hruns.ran.symm.trans hlast
  have hread : ∀ name path, ctx.outputs.get? name = some (.str path) →
      (name = "net" → Pathname.fileName? path = some "s.net") →
        after.disk.read path = .ok name.toUTF8 := by
    intro name path hpath hnamed
    obtain ⟨_, ⟨⟩, hread, -⟩ := hfound name _ hpath
    exact hread (fun hmis => hmis.2.2.2 (hnamed hmis.2.1)) fun log hburied => by cases hburied.1
  exact ⟨m, ctx, after, hruns, hread _ _ hutil (by decide), hread _ _ hlog (by decide),
    hread _ _ hnet fun _ => by decide⟩

/-- A packed netlist that is bound to another name is not there, although VPR has packed it. -/
theorem renamed_netlist_missing : ∃ m ctx after, Sample.Runs Sample.renamed "/out" m ctx after ∧
    ctx.outputs.get? "net" = some (.str "/out/x.net") ∧
    after.disk.exists? "/out/x.net" = false := by
  have hrun : Sample.runsAnd Sample.renamed "/out" (fun ctx disk =>
      decide (ctx.outputs.get? "net" = some (.str "/out/x.net")) && !disk.exists? "/out/x.net") =
        true := by
    decide +kernel
  obtain ⟨m, ctx, after, hruns, htest⟩ := Sample.exists_of_runsAnd hrun
  simp only [Bool.and_eq_true, Bool.not_eq_true', decide_eq_true_eq] at htest
  exact ⟨m, ctx, after, hruns, htest⟩

end Toolflow.Modules.Vpr
