import Dissect.Proofs.Control
import Dissect.Proofs.Tables

/-! Flat programs against nested ones. A run of the flat form of a program makes the same course as
the recursive walk over its nesting: wherever the machine stands in front of the flat form of a
program, with stacks that fit, it comes out behind it with the memory the walk ends with. -/
namespace Dissect

namespace Definition
variable {d : Definition} {data : Buffer} {maxDepth : Nat}

theorem follows_spent {c onward : Control} {m : Memory} {steps : Nat} {step : Step Nat}
    {leave : Option Control} (hs : d.step? c.place = some step) :
    d.Follows data maxDepth 0 (c.state m steps) ⟨m, [], 0, .spent⟩ onward leave := by
  intro events notes
  exact ⟨notes, runFrom_spent hs events notes⟩

theorem follows_leaf {c : Control} {m : Memory} {steps left : Nat} {action : Action Nat}
    {leave : Option Control} (hs : d.step? c.place = some (.act action))
    (h : ∀ id, action ≠ .block id) :
    d.Follows data maxDepth (left + 1) (c.state m steps) (Stretch.ofEffect (d.leaf data m action))
      (c.ahead 1) leave := by
  intro events notes
  refine ⟨(d.leaf data m action).note.toList ++ notes, ?_⟩
  rw [runFrom_step hs (perform_leaf h)]
  cases hh : (d.leaf data m action).halted with
  | none =>
    simp only [Stretch.ofEffect, hh, Control.lift]
    rfl
  | some outcome =>
    simp only [Stretch.ofEffect, hh, Control.lift]
    rfl

theorem follows_tooDeep {c onward : Control} {m : Memory} {steps left id : Nat}
    {leave : Option Control} (hs : d.step? c.place = some (.act (.block id)))
    (h : maxDepth ≤ c.returns.length) :
    d.Follows data maxDepth (left + 1) (c.state m steps)
      ⟨m, [], 1, .halted (.blockDepth (d.block id).id)⟩ onward leave := by
  intro events notes
  exact ⟨notes, runFrom_step hs (perform_tooDeep h (steps + 1)) left events notes⟩

theorem front_behind {c : Control} {first last : Step Nat} {body rest : List (Step Nat)}
    (h : d.front c = first :: (body ++ last :: rest)) :
    d.front (c.ahead (body.length + 2)) = rest := by
  have h0 : d.front c = (first :: (body ++ [last])) ++ rest := by
    rw [h, List.cons_append, List.append_assoc, List.singleton_append]
  have h1 := front_ahead h0
  rwa [List.length_cons, List.length_append, List.length_singleton] at h1

theorem length_enclosed (first last : Step Nat) (body rest : List (Step Nat)) :
    (first :: (body ++ last :: rest)).length = body.length + 2 + rest.length := by
  rw [List.length_cons, List.length_append, List.length_cons]
  omega

theorem enclosed_append (first last : Step Nat) (body rest post : List (Step Nat)) :
    first :: (body ++ last :: rest) ++ post = first :: (body ++ last :: (rest ++ post)) := by
  rw [List.cons_append, List.append_assoc, List.cons_append]

variable (d data maxDepth)

/-- With `left` steps left, the machine in front of the flat form of a program does what the walk
over the program does. -/
def FollowsWalks (tree : Tree) (left : Nat) : Prop :=
  ∀ (p : Program Nat) (post : List (Step Nat)) (c : Control) (direct : Bool) (m : Memory)
    (steps : Nat), d.front c = p.flatten ++ post → c.Fits direct →
    (direct = true → ∃ post', post = .selectionEnd :: post') →
    d.Follows data maxDepth left (c.state m steps)
      (d.walk data tree maxDepth c.returns.length direct left m p)
      (c.ahead p.flatten.length) (c.leave direct p.flatten.length)

variable {d data maxDepth}

theorem FollowsWalks.behind {tree : Tree} {left : Nat} (h : d.FollowsWalks data maxDepth tree left)
    {c : Control} {direct : Bool} {n : Nat} {rest : Program Nat} {post : List (Step Nat)}
    (hf : d.front (c.ahead n) = rest.flatten ++ post) (hc : c.Fits direct)
    (hpost : direct = true → ∃ post', post = .selectionEnd :: post') (m : Memory) (steps : Nat) :
    d.Follows data maxDepth left ((c.ahead n).state m steps)
      (d.walk data tree maxDepth c.returns.length direct left m rest)
      (c.ahead (n + rest.flatten.length)) (c.leave direct (n + rest.flatten.length)) := by
  have hrun := h rest post (c.ahead n) direct m steps hf (hc.ahead n) hpost
  rwa [Control.ahead_ahead, Control.leave_ahead] at hrun

theorem followsWalks_zero (tree : Tree) : d.FollowsWalks data maxDepth tree 0 := by
  intro p post c direct m steps hf _ _
  cases p with
  | done =>
    rw [walk]
    exact fun events notes => ⟨notes, rfl⟩
  | _ =>
    rw [walk]
    · exact follows_spent (step?_of_front hf)
    · simp

theorem follows_turn {tree : Tree} {left : Nat}
    (hw : ∀ l < left, d.FollowsWalks data maxDepth tree l) {c : Control} {direct : Bool}
    {g : LoopGuard Nat} {body : Program Nat} {post : List (Step Nat)}
    (hf : d.front c = .loopStart g :: (body.flatten ++ .loopEnd :: post)) (hc : c.Fits direct) :
    ∀ (turns : Nat) (m : Memory) (steps : Nat),
      d.Follows data maxDepth left ((c.again turns).state m steps)
        (d.turn data tree maxDepth c.returns.length g body turns left m)
        (c.ahead (body.flatten.length + 2)) none := by
  induction left using Nat.strongRecOn with
  | ind left ih =>
    intro turns m steps
    have hs : d.step? (c.again turns).place = some (.loopStart g) := step?_of_front hf
    cases left with
    | zero =>
      rw [turn]
      exact follows_spent hs
    | succ left =>
      rw [turn]
      by_cases h : goesOn data m g turns
      · rw [if_pos h]
        have hbody : d.Follows data maxDepth left ((c.inLoop turns).state m (steps + 1))
            ((d.walk data tree maxDepth c.returns.length false left m body).closed left)
            (c.again (turns + 1)) none := by
          have hfront : d.front (c.inLoop turns) = body.flatten ++ .loopEnd :: post :=
            front_ahead_one hf
          have hrun := hw left (Nat.lt_succ_self left) body _ (c.inLoop turns) false m (steps + 1)
            hfront (hc.inLoop turns) (by simp)
          refine hrun.closed fun m steps left => ?_
          exact Follows.marker (step?_of_front (front_ahead hfront))
            (perform_loopEnd c turns _ m (steps + 1))
        refine Follows.counted hs (perform_again hc h (steps + 1)) (hbody.andThen ?_)
        exact ih _ (by omega) (fun l hl => hw l (by omega)) (turns + 1) _ _
      · rw [if_neg h]
        obtain ⟨note, hp⟩ := perform_loopOver hc hf h (steps + 1)
        exact Follows.marker hs hp

theorem follows_guarded {tree : Tree} {left : Nat} {c : Control} {direct : Bool} {m : Memory}
    {g : Guard Nat} {body rest : Program Nat} {post : List (Step Nat)}
    (hbody : d.FollowsWalks data maxDepth tree left)
    (hf : d.front c = .matchStart g :: (body.flatten ++ .matchEnd :: (rest.flatten ++ post)))
    (hc : c.Fits direct) (hpost : direct = true → ∃ post', post = .selectionEnd :: post')
    (steps : Nat) (hrest : ∀ (l : Nat) (m : Memory) (steps : Nat),
      l ≤ left → d.Follows data maxDepth l ((c.ahead (body.flatten.length + 2)).state m steps)
        (d.walk data tree maxDepth c.returns.length direct l m rest)
        (c.ahead (body.flatten.length + 2 + rest.flatten.length))
        (c.leave direct (body.flatten.length + 2 + rest.flatten.length))) :
    d.Follows data maxDepth (left + 1) (c.state m steps)
      (d.walk data tree maxDepth c.returns.length direct (left + 1) m (.guarded g body rest))
      (c.ahead (body.flatten.length + 2 + rest.flatten.length))
      (c.leave direct (body.flatten.length + 2 + rest.flatten.length)) := by
  have hs : d.step? c.place = some (.matchStart g) := step?_of_front hf
  have hfront : d.front (c.inGuarded direct) =
      body.flatten ++ .matchEnd :: (rest.flatten ++ post) := front_ahead_one hf
  have hend : d.step? ((c.inGuarded direct).ahead body.flatten.length).place = some .matchEnd :=
    step?_of_front (front_ahead hfront)
  rw [walk]
  by_cases h : d.holds data m.bare g
  · rw [if_pos h]
    have hrun := hbody body _ (c.inGuarded direct) false m (steps + 1) hfront hc.inGuarded (by simp)
    cases direct with
    | true =>
      obtain ⟨post', rfl⟩ := hpost rfl
      simp only [if_true]
      refine Follows.counted hs (perform_enter hc h (steps + 1)) ?_
      refine (hrun.closed fun m steps left => ?_).chosen _
      obtain ⟨note, hp⟩ := perform_choice (front_behind hf) m (steps + 1)
      exact Follows.marker hend hp
    | false =>
      simp only [Bool.false_eq_true, if_false]
      refine Follows.counted hs (perform_enter hc h (steps + 1)) ?_
      have hclosed := hrun.closed fun m steps left =>
        Follows.marker hend (perform_end hc _ m (steps + 1))
      exact (hclosed.weaken _).andThen (hrest _ _ _ (by omega))
  · rw [if_neg h]
    obtain ⟨note, hp⟩ := perform_skip hf (Bool.eq_false_iff.mpr h) (steps + 1)
    exact Follows.counted hs hp (hrest left m (steps + 1) (Nat.le_refl left))

theorem follows_selection {tree : Tree} {left : Nat} {c : Control} {direct : Bool} {m : Memory}
    {body rest : Program Nat} {post : List (Step Nat)}
    (hbody : d.FollowsWalks data maxDepth tree left)
    (hf : d.front c = .selectionStart :: (body.flatten ++ .selectionEnd :: post))
    (hc : c.Fits direct) (steps : Nat) {onward : Control} {leave : Option Control}
    (hrest : ∀ (l : Nat) (m : Memory) (steps : Nat),
      l ≤ left → d.Follows data maxDepth l ((c.ahead (body.flatten.length + 2)).state m steps)
        (d.walk data tree maxDepth c.returns.length direct l m rest) onward leave) :
    d.Follows data maxDepth (left + 1) (c.state m steps)
      (d.walk data tree maxDepth c.returns.length direct (left + 1) m (.selection body rest))
      onward leave := by
  have hs : d.step? c.place = some .selectionStart := step?_of_front hf
  have hfront : d.front c.inSelection = body.flatten ++ .selectionEnd :: post := front_ahead_one hf
  have hend : d.step? (c.inSelection.ahead body.flatten.length).place = some .selectionEnd :=
    step?_of_front (front_ahead hfront)
  rw [walk]
  have hrun := hbody body _ c.inSelection true m (steps + 1) hfront hc.inSelection
    fun _ => ⟨post, rfl⟩
  have hleave : c.inSelection.leave true body.flatten.length =
      some (c.ahead (body.flatten.length + 2)) := by
    have hpc : c.place.pc + 1 + (body.flatten.length + 1) =
        c.place.pc + (body.flatten.length + 2) := by
      omega
    simp only [Control.leave, Control.inSelection, Control.ahead, hpc, if_true, List.tail_cons]
  rw [hleave] at hrun
  have hselected := hrun.selected fun m steps left =>
    Follows.marker hend (perform_selectionEnd c _ m (steps + 1))
  refine Follows.counted hs rfl ((hselected.weaken _).andThen (hrest _ _ _ (by omega)))

theorem follows_call {tree : Tree} (htree : ∀ i, (d.block i).steps = (tree.block i).flatten)
    {left : Nat} {c : Control} {direct : Bool} {m : Memory} {id : Nat} {rest : Program Nat}
    {post : List (Step Nat)} (hbody : d.FollowsWalks data maxDepth tree left)
    (hf : d.front c = .act (.block id) :: post) (hc : c.Fits direct) (steps : Nat)
    {onward : Control} {leave : Option Control}
    (hrest : ∀ (l : Nat) (m : Memory) (steps : Nat),
      l ≤ left → d.Follows data maxDepth l ((c.ahead 1).state m steps)
        (d.walk data tree maxDepth c.returns.length direct l m rest) onward leave) :
    d.Follows data maxDepth (left + 1) (c.state m steps)
      (d.walk data tree maxDepth c.returns.length direct (left + 1) m (.act (.block id) rest))
      onward leave := by
  have hs : d.step? c.place = some (.act (.block id)) := step?_of_front hf
  rw [walk]
  by_cases h : maxDepth ≤ c.returns.length
  · rw [if_pos h]
    exact follows_tooDeep hs h
  · rw [if_neg h]
    have hfront : d.front (c.called id) = (tree.block id).flatten ++ [] := by
      rw [List.append_nil, ← htree id]
      rfl
    have hrun := hbody (tree.block id) [] (c.called id) false m (steps + 1) hfront (hc.called id)
      (by simp)
    have hend : d.front ((c.called id).ahead (tree.block id).flatten.length) = [] :=
      front_ahead hfront
    refine Follows.counted hs (perform_call h (steps + 1)) ?_
    exact ((hrun.returned hend).weaken _).andThen (hrest _ _ _ (by omega))

/-- The induction is on the steps left; among programs run with the same steps left it is on the
program, for behind a loop there are as many left as before it if the loop took none. -/
theorem followsWalks {tree : Tree} (htree : ∀ i, (d.block i).steps = (tree.block i).flatten)
    (left : Nat) : d.FollowsWalks data maxDepth tree left := by
  induction left using Nat.strongRecOn with
  | ind left ih =>
    cases left with
    | zero => exact followsWalks_zero tree
    | succ left =>
      have hbody : d.FollowsWalks data maxDepth tree left := ih left (Nat.lt_succ_self left)
      intro p
      induction p with
      | done =>
        intro post c direct m steps _ _ _
        rw [walk]
        exact fun events notes => ⟨notes, rfl⟩
      | act action rest ihr =>
        intro post c direct m steps hf hc hpost
        have hf' : d.front c = .act action :: (rest.flatten ++ post) := hf
        have hrest (l : Nat) (m : Memory) (steps : Nat) (hl : l ≤ left) :=
          (ih l (by omega)).behind (front_ahead_one hf') hc hpost m steps
        simp only [Nat.add_comm 1] at hrest
        by_cases hb : ∃ id, action = .block id
        · obtain ⟨id, rfl⟩ := hb
          exact follows_call htree hbody hf' hc steps hrest
        · have hleaf : ∀ id, action ≠ .block id := fun id he => hb ⟨id, he⟩
          rw [walk]
          · exact (follows_leaf (step?_of_front hf') hleaf).andThen
              (hrest left _ _ (Nat.le_refl left))
          · exact fun id he => hleaf id he
      | guarded g body rest ihb ihr =>
        intro post c direct m steps hf hc hpost
        have hf' : d.front c =
            .matchStart g :: (body.flatten ++ .matchEnd :: (rest.flatten ++ post)) := by
          rw [hf, Program.flatten, enclosed_append]
        rw [Program.flatten, length_enclosed]
        exact follows_guarded hbody hf' hc hpost steps fun l m steps hl =>
          (ih l (by omega)).behind (front_behind hf') hc hpost m steps
      | loop g body rest ihb ihr =>
        intro post c direct m steps hf hc hpost
        have hf' : d.front c =
            .loopStart g :: (body.flatten ++ .loopEnd :: (rest.flatten ++ post)) := by
          rw [hf, Program.flatten, enclosed_append]
        rw [Program.flatten, length_enclosed]
        have hrest (l : Nat) (m : Memory) (steps : Nat) (hl : l ≤ left + 1) :
            d.Follows data maxDepth l ((c.ahead (body.flatten.length + 2)).state m steps)
              (d.walk data tree maxDepth c.returns.length direct l m rest)
              (c.ahead (body.flatten.length + 2 + rest.flatten.length))
              (c.leave direct (body.flatten.length + 2 + rest.flatten.length)) := by
          rcases Nat.lt_or_eq_of_le hl with hlt | rfl
          · exact (ih l hlt).behind (front_behind hf') hc hpost m steps
          · have hrun := ihr post _ direct m steps (front_behind hf') (hc.ahead _) hpost
            rwa [Control.ahead_ahead, Control.leave_ahead] at hrun
        rw [walk]
        have hturn := follows_turn ih hf' hc 0 m steps
        exact (hturn.weaken _).andThen (hrest _ _ _ (by omega))
      | selection body rest ihb ihr =>
        intro post c direct m steps hf hc hpost
        have hf' : d.front c =
            .selectionStart :: (body.flatten ++ .selectionEnd :: (rest.flatten ++ post)) := by
          rw [hf, Program.flatten, enclosed_append]
        rw [Program.flatten, length_enclosed]
        exact follows_selection hbody hf' hc steps fun l m steps hl =>
          (ih l (by omega)).behind (front_behind hf') hc hpost m steps

theorem course_finish (s : State) (outcome : Outcome) (events : List Event) (notes : List Note) :
    (finish s outcome events notes).course =
      ⟨events.reverse ++ s.tabs.map (Event.tab ·.close), outcome, s.steps⟩ := by
  simp only [finish, Run.course, List.reverse_append, List.map_reverse, List.reverse_reverse]

theorem run_course {tree : Tree} (hmain : d.program = tree.main.flatten)
    (htree : ∀ i, (d.block i).steps = (tree.block i).flatten) (data : Buffer) (config : Config) :
    (d.run data config).course = d.courseOf tree data config := by
  have hfront : d.front Control.start = tree.main.flatten ++ [] := by
    rw [List.append_nil, ← hmain]
    rfl
  have hfits : Control.start.Fits false := by
    constructor <;> simp [Control.start]
  have hfollows : d.FollowsWalks data config.maxBlockDepth tree config.stepLimit :=
    followsWalks htree config.stepLimit
  obtain ⟨notes, h⟩ :=
    hfollows tree.main [] Control.start false ⟨0, Store.empty d.vars.length, []⟩ 0
    hfront hfits (by simp) [.title d.name] []
  have hrun : d.run data config = d.runFrom data config.maxBlockDepth [.title d.name] []
      config.stepLimit (Control.start.state ⟨0, Store.empty d.vars.length, []⟩ 0) := rfl
  rw [hrun, courseOf]
  have hdepth : Control.start.returns.length = 0 := rfl
  rw [hdepth] at h
  cases hr : (d.walk data tree config.maxBlockDepth 0 false config.stepLimit
      ⟨0, Store.empty d.vars.length, []⟩ tree.main).ending with
  | through =>
    have hend : d.step? (Control.start.ahead tree.main.flatten.length).place = none :=
      step?_of_front_nil (front_ahead hfront)
    simp only [hr] at h
    rw [h, runFrom_completed hend rfl, course_finish]
    simp [Stretch.course, hr, Control.state]
  | decided => simp [hr, Control.leave] at h
  | spent =>
    simp only [hr] at h
    rw [h, course_finish]
    simp [Stretch.course, hr, Control.state]
  | halted outcome =>
    simp only [hr] at h
    rw [h, course_finish]
    simp [Stretch.course, hr, Control.state]

end Definition

namespace Document

/-- The programs of a document as they are nested, references numbered. A block without a
declaration is empty. -/
def Format.tree (f : Format) : Tree where
  main := f.firsts.numbering.program f.program
  block i :=
    match f.firsts.blocks[i]?.bind fun r => f.blockDecls.find? (·.id == r.id) with
    | some decl => f.firsts.numbering.program decl.program
    | none => .done

theorem Format.block_steps {f : Format} {d : Definition} (h : f.definition = .ok d) (i : Nat) :
    (d.block i).steps = (f.tree.block i).flatten := by
  obtain ⟨-, -, -, hblocks, -⟩ := definition_eq_ok.1 h
  have hi := congrArg (·[i]?) hblocks
  simp only [List.getElem?_map] at hi
  cases hr : f.firsts.blocks[i]? with
  | none =>
    rw [hr, Option.map_none] at hi
    have hb : d.blocks[i]? = none := Option.map_eq_none_iff.1 hi.symm
    simp [Definition.block, hb, tree, hr, Program.flatten]
  | some r =>
    rw [hr, Option.map_some] at hi
    obtain ⟨b, hb, hm⟩ := Option.map_eq_some_iff.1 hi.symm
    obtain ⟨decl, hdecl, rfl⟩ := Option.map_eq_some_iff.1 hm.symm
    simp [Definition.block, hb, tree, hr, hdecl]

/-- What a document compiles to, run over any buffer, makes the course of the recursive walk over
the elements of the document: the same events in the same order, the same outcome and the same
count of steps. -/
theorem compile_course {source : List Char} {d : Definition} (h : compile source = .ok d) :
    ∃ f, Format.ofContent? (Content.ofSource source) = .ok (some f) ∧
      ∀ (data : Buffer) (config : Config),
        (d.run data config).course = d.courseOf f.tree data config := by
  obtain ⟨f, hf, hd⟩ := compile_eq_ok.1 h
  refine ⟨f, hf, fun data config => ?_⟩
  obtain ⟨-, -, -, -, hdef⟩ := Format.definition_eq_ok.1 hd
  have hmain : d.program = f.tree.main.flatten := by
    rw [hdef]
    rfl
  exact Definition.run_course hmain (Format.block_steps hd) data config

def nestedSample : String :=
  "<format name='n' short='s'><endianness order='big'/>
   <magic><signature><match value='00'/></signature></magic><colors/>
   <field-defs><field id='f'><size fixed='1'/></field></field-defs>
   <block-defs><block-def id='b'><selection>
   <match bytes='00'><field ref='f'/><block ref='b'/></match>
   <match bytes='01'><field ref='f'/></match></selection></block-def></block-defs>
   <run><loop remaining='true' count='3'><block ref='b'/></loop></run></format>"

set_option maxRecDepth 4000 in
theorem compile_course_nestedSample : ∃ d f, compile nestedSample.toList = .ok d ∧
    Format.ofContent? (Content.ofSource nestedSample.toList) = .ok (some f) ∧
    (d.run #[0, 0, 1, 2] {}).course = d.courseOf f.tree #[0, 0, 1, 2] {} := by
  have hc : (compile nestedSample.toList).isOk = true := by
    rw [show nestedSample.toList = _ from String.toList_ofList]
    decide +kernel
  obtain ⟨d, hd⟩ := exists_ok hc
  obtain ⟨f, hf, hrun⟩ := compile_course hd
  exact ⟨d, f, hd, hf, hrun _ _⟩

end Document

end Dissect
