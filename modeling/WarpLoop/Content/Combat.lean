import Mathlib.Algebra.Order.Ring.Int
import Mathlib.Algebra.BigOperators.Group.List.Basic
import WarpLoop.Lib.Replay

/-! The combo, invulnerability and damage reducer of an encounter
(flow-toolchain/riscv-guests/content/combat.scm). Integers are exact. -/
namespace WarpLoop.Content.Combat
open Lib.Replay

def comboMinGap : Int := 6

def comboMaxGap : Int := 18

def invulnTicks : Int := 30

def enemyMaxHp : Int := 100

def damageOf (stage : Int) : Int := if stage = 0 then 10 else if stage = 1 then 15 else 25

structure State where
  tick : Int
  combo : Int
  lastAttack : Int
  hp : Int
  spawn : Int
  alive : Bool
  deriving DecidableEq,Repr

def initialState : State := ⟨0,0,0,0,0,false⟩

/-- Symbols that the reducer does not know are `other`. -/
inductive Event where
  | tick
  | spawn
  | attack
  | other
  deriving DecidableEq,Repr

inductive Output where
  | swing (stage : Int)
  | blocked
  | hit (dmg : Int)
  | death
  | comboDrop
  | whiff
  deriving DecidableEq,Repr

def resolveSwing (s : State) (stage : Int) : State × List Output :=
  if s.alive = false then (s,[.swing stage])
  else if s.tick < s.spawn + invulnTicks then (s,[.swing stage,.blocked])
  else
    let dmg := damageOf stage
    if s.hp ≤ dmg then ({s with hp := 0,alive := false},[.swing stage,.hit dmg,.death])
    else ({s with hp := s.hp - dmg},[.swing stage,.hit dmg])

def combatStep (s : State) (event : Event) : State × List Output :=
  match event with
  | .tick =>
    let s1 := {s with tick := s.tick + 1}
    if s1.combo > 0 ∧ s1.tick > s1.lastAttack + comboMaxGap then ({s1 with combo := 0},[.comboDrop])
    else (s1,[])
  | .spawn => ({s with alive := true,hp := enemyMaxHp,spawn := s.tick},[])
  | .attack =>
    if s.combo = 0 then resolveSwing {s with combo := 1,lastAttack := s.tick} 0
    else
      let gap := s.tick - s.lastAttack
      if comboMinGap ≤ gap ∧ gap ≤ comboMaxGap then
        let stage := s.combo
        let next := if stage ≥ 2 then 0 else stage + 1
        resolveSwing {s with combo := next,lastAttack := s.tick} stage
      else ({s with combo := 0},[.whiff])
  | .other => (s,[])

def combatReplay (events : List Event) : State × List Output := replay combatStep initialState events

/-! The combo: stages 0 to 2, and a started combo whose window is still open. -/

structure Timing (s : State) : Prop where
  combo_nonneg : 0 ≤ s.combo
  combo_le : s.combo ≤ 2
  lastAttack_le : s.lastAttack ≤ s.tick
  window : 0 < s.combo → s.tick - s.lastAttack ≤ comboMaxGap

theorem resolveSwing_frame (s : State) (stage : Int) :
    (resolveSwing s stage).1.tick = s.tick ∧ (resolveSwing s stage).1.combo = s.combo ∧
      (resolveSwing s stage).1.lastAttack = s.lastAttack := by
  simp only [resolveSwing]
  split_ifs <;> exact ⟨rfl,rfl,rfl⟩

theorem resolveSwing_timing {s : State} (timing : Timing s) (stage : Int) : Timing (resolveSwing s stage).1 := by
  obtain ⟨sameTick,sameCombo,sameAttack⟩ := resolveSwing_frame s stage
  constructor
  · rw [sameCombo]
    exact timing.combo_nonneg
  · rw [sameCombo]
    exact timing.combo_le
  · rw [sameTick,sameAttack]
    exact timing.lastAttack_le
  · rw [sameTick,sameCombo,sameAttack]
    exact timing.window

theorem attack_cases {s : State} (timing : Timing s) :
    combatStep s .attack = ({s with combo := 0},[.whiff]) ∨
      ∃ combo stage, 0 ≤ combo ∧ combo ≤ 2 ∧
        combatStep s .attack = resolveSwing {s with combo := combo,lastAttack := s.tick} stage := by
  have nonneg := timing.combo_nonneg
  simp only [combatStep]
  split_ifs with fresh inWindow last
  · right
    exact ⟨1,0,by omega,by omega,rfl⟩
  · right
    exact ⟨0,s.combo,by omega,by omega,rfl⟩
  · right
    exact ⟨s.combo + 1,s.combo,by omega,by omega,rfl⟩
  · left
    rfl

theorem combatStep_timing {s : State} (timing : Timing s) (event : Event) : Timing (combatStep s event).1 := by
  obtain ⟨nonneg,le,before,window⟩ := timing
  cases event with
  | tick =>
    simp only [combatStep]
    split_ifs with late
    · exact ⟨le_refl 0,zero_le_two,by dsimp only; omega,by dsimp only; omega⟩
    · refine ⟨nonneg,le,by dsimp only; omega,?_⟩
      intro started
      dsimp only at started late ⊢
      omega
  | spawn => exact ⟨nonneg,le,before,window⟩
  | attack =>
    rcases attack_cases ⟨nonneg,le,before,window⟩ with whiffs | ⟨combo,stage,comboNonneg,comboLe,swings⟩
    · rw [whiffs]
      exact ⟨le_refl 0,zero_le_two,before,by dsimp only; omega⟩
    · rw [swings]
      apply resolveSwing_timing
      refine ⟨comboNonneg,comboLe,le_refl _,?_⟩
      intro _
      dsimp only [comboMaxGap]
      omega
  | other => exact ⟨nonneg,le,before,window⟩

/-! The enemy: its life, and what one step other than a spawn does to it. -/

structure Living (s : State) : Prop where
  hp_nonneg : 0 ≤ s.hp
  hp_le : s.hp ≤ enemyMaxHp
  alive_iff : s.alive = true ↔ 0 < s.hp
  spawn_le : s.spawn ≤ s.tick

def hitDamage : Output → Int
  | .hit dmg => dmg
  | _ => 0

def damage (outputs : List Output) : Int := (outputs.map hitDamage).sum

theorem damage_append (first second : List Output) : damage (first ++ second) = damage first + damage second := by
  simp [damage]

/-- A step from `s` to `s'`: damage takes hit points down to zero at the lowest, the
enemy dies at most once and only when it was alive, and hits need an enemy past its
invulnerability. -/
structure Fight (s s' : State) (outputs : List Output) : Prop where
  spawn_eq : s'.spawn = s.spawn
  damage_nonneg : 0 ≤ damage outputs
  hp_eq : s'.hp = max 0 (s.hp - damage outputs)
  alive_iff : s'.alive = true ↔ 0 < s'.hp
  deaths : outputs.count .death + s'.alive.toNat = s.alive.toNat
  hits : ∀ dmg, Output.hit dmg ∈ outputs → s.alive = true ∧ s.spawn + invulnTicks ≤ s.tick

theorem damageOf_pos (stage : Int) : 0 < damageOf stage := by
  unfold damageOf
  split_ifs <;> decide

/-- Outputs that concern the swing alone and not the enemy. -/
def quiet : Output → Bool
  | .hit _ => false
  | .death => false
  | _ => true

theorem damage_quiet {outputs : List Output} (silent : ∀ output ∈ outputs, quiet output = true) :
    damage outputs = 0 := by
  apply List.sum_eq_zero
  intro amount listed
  obtain ⟨output,member,rfl⟩ := List.mem_map.mp listed
  have still := silent output member
  cases output with
  | hit dmg => simp [quiet] at still
  | _ => rfl

theorem Fight.of_quiet {s s' : State} (living : Living s) {outputs : List Output}
    (silent : ∀ output ∈ outputs, quiet output = true) (sameSpawn : s'.spawn = s.spawn)
    (sameHp : s'.hp = s.hp) (sameAlive : s'.alive = s.alive) : Fight s s' outputs where
  spawn_eq := sameSpawn
  damage_nonneg := by rw [damage_quiet silent]
  hp_eq := by rw [damage_quiet silent,sameHp,sub_zero,max_eq_right living.hp_nonneg]
  alive_iff := by
    rw [sameHp,sameAlive]
    exact living.alive_iff
  deaths := by
    have noDeath : Output.death ∉ outputs := by
      intro dies
      simpa [quiet] using silent _ dies
    rw [List.count_eq_zero.mpr noDeath,sameAlive,zero_add]
  hits := by
    intro dmg hit
    simpa [quiet] using silent _ hit

theorem resolveSwing_fight {s : State} (living : Living s) (stage : Int) :
    Fight s (resolveSwing s stage).1 (resolveSwing s stage).2 := by
  have positive := damageOf_pos stage
  simp only [resolveSwing]
  split_ifs with dead early fatal
  · exact Fight.of_quiet living (by simp [quiet]) rfl rfl rfl
  · exact Fight.of_quiet living (by simp [quiet]) rfl rfl rfl
  · have alive : s.alive = true := by simpa using dead
    refine ⟨rfl,?_,?_,?_,?_,?_⟩
    · simpa [damage,hitDamage] using positive.le
    · simp only [damage,hitDamage,List.map_cons,List.map_nil,List.sum_cons,List.sum_nil]
      omega
    · simp
    · simp [alive]
    · intro dmg _
      exact ⟨alive,by omega⟩
  · have alive : s.alive = true := by simpa using dead
    refine ⟨rfl,?_,?_,?_,?_,?_⟩
    · simpa [damage,hitDamage] using positive.le
    · simp only [damage,hitDamage,List.map_cons,List.map_nil,List.sum_cons,List.sum_nil]
      omega
    · simp only [alive,true_iff]
      omega
    · simp
    · intro dmg _
      exact ⟨alive,by omega⟩

/-- The combo does not matter to the enemy. -/
theorem combatStep_fight {s : State} (timing : Timing s) (living : Living s) (event : Event)
    (notSpawn : event ≠ .spawn) : Fight s (combatStep s event).1 (combatStep s event).2 := by
  cases event with
  | tick =>
    simp only [combatStep]
    split_ifs
    · exact Fight.of_quiet living (by simp [quiet]) rfl rfl rfl
    · exact Fight.of_quiet living (by simp) rfl rfl rfl
  | spawn => exact absurd rfl notSpawn
  | attack =>
    rcases attack_cases timing with whiffs | ⟨combo,stage,_,_,swings⟩
    · rw [whiffs]
      exact Fight.of_quiet living (by simp [quiet]) rfl rfl rfl
    · rw [swings]
      have swung : Living {s with combo := combo,lastAttack := s.tick} :=
        ⟨living.hp_nonneg,living.hp_le,living.alive_iff,living.spawn_le⟩
      obtain ⟨sameSpawn,nonneg,hp,alive,deaths,hits⟩ := resolveSwing_fight swung stage
      exact ⟨sameSpawn,nonneg,hp,alive,deaths,hits⟩
  | other => exact Fight.of_quiet living (by simp [combatStep]) rfl rfl rfl

theorem combatStep_tick {s : State} (timing : Timing s) (event : Event) :
    (combatStep s event).1.tick = s.tick + [event].count .tick := by
  cases event with
  | tick =>
    simp only [combatStep]
    split_ifs <;> rfl
  | spawn => simp [combatStep]
  | attack =>
    rcases attack_cases timing with whiffs | ⟨combo,stage,_,_,swings⟩
    · rw [whiffs]
      simp
    · rw [swings,(resolveSwing_frame _ stage).1]
      simp
  | other => simp [combatStep]

theorem combatStep_living {s : State} (timing : Timing s) (living : Living s) (event : Event) :
    Living (combatStep s event).1 := by
  have clock := combatStep_tick timing event
  have upper := living.hp_le
  have born := living.spawn_le
  by_cases spawns : event = .spawn
  · subst spawns
    exact ⟨by simp [combatStep,enemyMaxHp],le_refl _,by simp [combatStep,enemyMaxHp],le_refl _⟩
  · have fight := combatStep_fight timing living event spawns
    have nonneg := fight.damage_nonneg
    have hp := fight.hp_eq
    have same := fight.spawn_eq
    refine ⟨by omega,?_,fight.alive_iff,by omega⟩
    have := living.hp_nonneg
    omega

/-! Whole replays. -/

theorem combatReplay_sound (events : List Event) :
    Timing (combatReplay events).1 ∧ Living (combatReplay events).1 := by
  apply replay_invariant combatStep (fun _ s _ => Timing s ∧ Living s) initialState
  · exact ⟨⟨by decide,by decide,by decide,by decide⟩,⟨by decide,by decide,by decide,by decide⟩⟩
  · rintro _ s _ event ⟨timing,living⟩
    exact ⟨combatStep_timing timing event,combatStep_living timing living event⟩

theorem combatReplay_snoc (events : List Event) (event : Event) :
    combatReplay (events ++ [event]) =
      ((combatStep (combatReplay events).1 event).1,
        (combatReplay events).2 ++ (combatStep (combatReplay events).1 event).2) :=
  replay_snoc combatStep initialState events event

theorem combatReplay_tick (events : List Event) : (combatReplay events).1.tick = events.count .tick := by
  induction events using List.reverseRecOn with
  | nil => rfl
  | append_singleton events event ih =>
    have clock := combatStep_tick (combatReplay_sound events).1 event
    rw [combatReplay_snoc,clock,ih,List.count_append,Nat.cast_add]

-- The golden vector of the guest's own test.
example : (combatReplay (.spawn::List.replicate 30 .tick ++ [.attack])).1 = ⟨30,1,30,90,0,true⟩ := by
  decide +kernel

/-- A death needs a spawn of its own, and an enemy still alive keeps one in reserve. -/
theorem combatReplay_deaths (events : List Event) :
    (combatReplay events).2.count .death + (combatReplay events).1.alive.toNat ≤ events.count .spawn := by
  induction events using List.reverseRecOn with
  | nil => decide
  | append_singleton events event ih =>
    obtain ⟨timing,living⟩ := combatReplay_sound events
    rw [combatReplay_snoc,List.count_append,List.count_append]
    by_cases spawns : event = .spawn
    · subst spawns
      simp only [combatStep,List.count_nil,List.count_cons_self,Bool.toNat_true]
      omega
    · have deaths := (combatStep_fight timing living event spawns).deaths
      dsimp only
      omega

theorem replay_unspawned {s : State} (timing : Timing s) (living : Living s) (events : List Event)
    (unspawned : Event.spawn ∉ events) :
    (replay combatStep s events).1.spawn = s.spawn ∧
      (replay combatStep s events).1.hp = max 0 (s.hp - damage (replay combatStep s events).2) := by
  have kept := replay_invariant combatStep (fun events s' outputs => Event.spawn ∉ events →
    Timing s' ∧ Living s' ∧ s'.spawn = s.spawn ∧ s'.hp = max 0 (s.hp - damage outputs)) s ?first ?keeps events unspawned
  case first =>
    intro _
    have nonneg := living.hp_nonneg
    exact ⟨timing,living,rfl,by simp [damage,nonneg]⟩
  case keeps =>
    intro events s' outputs event before unspawned
    rw [List.mem_append,List.mem_singleton,not_or] at unspawned
    obtain ⟨timing,living,sameSpawn,hp⟩ := before unspawned.1
    have fight := combatStep_fight timing living event (Ne.symm unspawned.2)
    have nonneg := fight.damage_nonneg
    refine ⟨combatStep_timing timing event,combatStep_living timing living event,?_,?_⟩
    · rw [fight.spawn_eq,sameSpawn]
    · rw [fight.hp_eq,hp,damage_append]
      omega
  exact kept.2.2

theorem latest_of_mem {events : List Event} (spawned : Event.spawn ∈ events) :
    ∃ early late, events = early ++ .spawn::late ∧ Event.spawn ∉ late := by
  obtain ⟨late,early,split,fresh⟩ := List.eq_append_cons_of_mem (List.mem_reverse.mpr spawned)
  refine ⟨early.reverse,late.reverse,?_,by simpa using fresh⟩
  rw [← List.reverse_reverse events,split]
  simp

theorem combatReplay_since (early late : List Event) (unspawned : Event.spawn ∉ late) :
    let spawned := combatReplay (early ++ [.spawn])
    let reached := combatReplay (early ++ .spawn::late)
    reached.1.spawn = early.count .tick ∧
      reached.1.hp = max 0 (enemyMaxHp - damage (reached.2.drop spawned.2.length)) := by
  intro spawned reached
  have split : early ++ .spawn::late = (early ++ [.spawn]) ++ late := by simp
  obtain ⟨timing,living⟩ := combatReplay_sound (early ++ [.spawn])
  obtain ⟨sameSpawn,hp⟩ := replay_unspawned timing living late unspawned
  have whole : reached = ((replay combatStep spawned.1 late).1,spawned.2 ++ (replay combatStep spawned.1 late).2) := by
    simp only [reached,spawned,split,combatReplay]
    rw [replay_append]
  have fresh : spawned.1.spawn = early.count .tick ∧ spawned.1.hp = enemyMaxHp := by
    rw [show spawned = _ from combatReplay_snoc early .spawn]
    exact ⟨combatReplay_tick early,rfl⟩
  rw [whole]
  refine ⟨?_,?_⟩
  · exact sameSpawn.trans fresh.1
  · rw [List.drop_left,← fresh.2]
    exact hp

theorem hit_late {before : List Event} {event : Event} {dmg : Int}
    (hit : Output.hit dmg ∈ (combatStep (combatReplay before).1 event).2) :
    (combatReplay before).1.alive = true ∧ ∃ early late, before = early ++ .spawn::late ∧
      Event.spawn ∉ late ∧ 30 ≤ late.count .tick := by
  obtain ⟨timing,living⟩ := combatReplay_sound before
  have notSpawn : event ≠ .spawn := by
    rintro rfl
    simp [combatStep] at hit
  obtain ⟨alive,past⟩ := (combatStep_fight timing living event notSpawn).hits dmg hit
  have deaths := combatReplay_deaths before
  rw [alive] at deaths
  have spawned : Event.spawn ∈ before := List.count_pos_iff.mp (Nat.lt_of_lt_of_le (by simp) deaths)
  obtain ⟨early,late,split,unspawned⟩ := latest_of_mem spawned
  refine ⟨alive,early,late,split,unspawned,?_⟩
  have clock := combatReplay_tick before
  have born := (combatReplay_since early late unspawned).1
  rw [← split] at born
  rw [split,List.count_append,List.count_cons_of_ne (by decide)] at clock
  rw [split] at past born
  have guard : invulnTicks = 30 := rfl
  omega

theorem combatReplay_laws (events : List Event) :
    let s := (combatReplay events).1
    let outputs := (combatReplay events).2
    (0 ≤ s.combo ∧ s.combo ≤ 2 ∧ 0 ≤ s.hp ∧ s.hp ≤ 100 ∧ (s.alive = true ↔ 0 < s.hp) ∧ s.spawn ≤ s.tick ∧
      s.lastAttack ≤ s.tick ∧ (0 < s.combo → s.tick - s.lastAttack ≤ 18)) ∧
    outputs.count .death ≤ events.count .spawn ∧
    (∀ before event after dmg, events = before ++ event::after →
      Output.hit dmg ∈ (combatStep (combatReplay before).1 event).2 →
      (combatReplay before).1.alive = true ∧ ∃ early late, before = early ++ .spawn::late ∧
        Event.spawn ∉ late ∧ 30 ≤ late.count .tick) ∧
    ∀ early late, events = early ++ .spawn::late → Event.spawn ∉ late →
      s.hp = max 0 (100 - damage (outputs.drop (combatReplay (early ++ [.spawn])).2.length)) := by
  intro s outputs
  obtain ⟨timing,living⟩ := combatReplay_sound events
  refine ⟨?_,?_,?_,?_⟩
  · exact ⟨timing.combo_nonneg,timing.combo_le,living.hp_nonneg,living.hp_le,living.alive_iff,living.spawn_le,
      timing.lastAttack_le,timing.window⟩
  · exact Nat.le_of_add_right_le (combatReplay_deaths events)
  · intro before event after dmg _ hit
    exact hit_late hit
  · intro early late split unspawned
    have since := (combatReplay_since early late unspawned).2
    rw [← split] at since
    exact since

end WarpLoop.Content.Combat
