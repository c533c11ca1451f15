import SeaOfNodes.Flow.Map
import SeaOfNodes.Proofs.Outcome

/-!
# How a map of blocks comes about

The blocks of a method are found, its subroutines are inlined, and then the blocks are ordered and their
masks completed. A map shows the result of each stage, and a failure is that of one of them.
-/

namespace SeaOfNodes

/-- A static method of an int and without a result, for examples. -/
def Method.ofCode (code : Array UInt8) (handlers : List Handler) (pool : List PoolEntry) : Method where
  holder := "T"
  name := "m"
  descriptor := "(I)V"
  code := code
  handlers := handlers
  maxLocals := 6
  maxStack := 6
  isStatic := true
  parameters := [.int]
  result := .void
  pool := ⟨pool⟩
  lines := none

/-- A loop that counts its parameter down. -/
def Method.countdown : Method :=
  .ofCode #[0x1a, 0x99, 0, 9, 0x84, 0, 0xff, 0xa7, 0xff, 0xf9, 0xb1] [] []

namespace BlockMap

open Flow

variable {m : Method} {options : Options} {map : BlockMap}

/-- The blocks that are found in a method, with its subroutines inlined. -/
def inlined (options : Options) (d : Discovery) (first : BlockId) : Except Bailout Blocks :=
  if d.hasSubroutines then
    if options.supportJsr then inlineSubroutines d first else .error (.subroutine .disabled)
  else .ok d.blocks

/-- The blocks of a method before they are ordered, and the one where it starts. -/
structure Found (m : Method) (options : Options) (d : Discovery) (first : BlockId) (blocks : Blocks) :
    Prop where
  discover : Flow.discover m options = .ok d
  start : (d.blockAt[0]?).join = some first
  inlined : inlined options d first = .ok blocks

/-- The stages of a map. -/
structure Staged (m : Method) (options : Options) (d : Discovery) (first : BlockId) (blocks : Blocks)
    (s : Flow.Ordering) (completed : Blocks) (map : BlockMap) : Prop
    extends Found m options d first blocks where
  order : Flow.order blocks first (min options.loopLimit maxLoops) = .ok s
  masks : completeMasks first (maskRounds s.blocks) s.blocks = .ok completed
  result : map =
    { blocks := numbered completed s.order
      blockAt := d.blockAt
      order := s.order
      headers := s.headers
      hasSubroutines := d.hasSubroutines
      liveness := if options.livenessAnalysis then
        some (Liveness.compute (numbered completed s.order) s.order m.code) else none }

/-- The stage at which there is no map. -/
inductive Broken (m : Method) (options : Options) (e : Bailout) : Prop
  | discover (h : Flow.discover m options = .error e)
  | start (cause : Malformation) (h : e = .malformed cause)
  | inlined (d : Discovery) (first : BlockId) (found : Flow.discover m options = .ok d)
    (h : inlined options d first = .error e)
  | order (d : Discovery) (first : BlockId) (blocks : Blocks) (found : Found m options d first blocks)
    (h : Flow.order blocks first (min options.loopLimit maxLoops) = .error e)
  | masks (d : Discovery) (first : BlockId) (blocks : Blocks) (found : Found m options d first blocks)
    (s : Flow.Ordering) (ordered : Flow.order blocks first (min options.loopLimit maxLoops) = .ok s)
    (h : completeMasks first (maskRounds s.blocks) s.blocks = .error e)

/-- A map goes through its stages, or breaks at one of them. -/
theorem ends_create_stages (m : Method) (options : Options) :
    Ends (create m options)
      (fun map => ∃ d first blocks s completed, Staged m options d first blocks s completed map)
      (Broken m options) := by
  unfold create
  cases hd : Flow.discover m options with
  | error e => exact .discover hd
  | ok d =>
    refine ends_bind.2 (ends_ok.2 ?_)
    split
    · rename_i first hfirst
      have hrest {blocks : Blocks} (hb : inlined options d first = .ok blocks) :
          Ends (do
            let s ← Flow.order blocks first (min options.loopLimit maxLoops)
            let blocks ← completeMasks first (maskRounds s.blocks) s.blocks
            let blocks := numbered blocks s.order
            return {
              blocks
              blockAt := d.blockAt
              order := s.order
              headers := s.headers
              hasSubroutines := d.hasSubroutines
              liveness :=
                if options.livenessAnalysis then some (Liveness.compute blocks s.order m.code)
                else none } : Except Bailout BlockMap)
            (fun map => ∃ d first blocks s completed, Staged m options d first blocks s completed map)
            (Broken m options) := by
        have hfound : Found m options d first blocks := ⟨hd, hfirst, hb⟩
        cases hs : Flow.order blocks first (min options.loopLimit maxLoops) with
        | error e => exact .order d first blocks hfound hs
        | ok s =>
          refine ends_bind.2 (ends_ok.2 ?_)
          cases hc : completeMasks first (maskRounds s.blocks) s.blocks with
          | error e => exact .masks d first blocks hfound s hs hc
          | ok completed => exact ⟨d, first, blocks, s, completed, hfound, hs, hc, rfl⟩
      dsimp only
      split
      · rename_i hsub
        split
        · rename_i hjsr
          cases hb : inlineSubroutines d first with
          | error e => exact .inlined d first hd (by rw [inlined, if_pos hsub, if_pos hjsr, hb])
          | ok blocks => exact hrest (by rw [inlined, if_pos hsub, if_pos hjsr, hb])
        · rename_i hjsr
          exact .inlined d first hd (by rw [inlined, if_pos hsub, if_neg hjsr])
      · rename_i hsub
        exact hrest (by rw [inlined, if_neg hsub])
    · exact .start _ rfl

end BlockMap

end SeaOfNodes
