import SwiftRuntime.Loop
import SwiftRuntime.Effect
import SwiftRuntime.SearchTree
import SwiftRuntime.ColorTree
import SwiftRuntime.Forwarding
import SwiftRuntime.Chains
import SwiftRuntime.FreeList
import SwiftRuntime.ByteMemory
import SwiftRuntime.FlowGraph
import SwiftRuntime.Backend.TranslateTable
import SwiftRuntime.Backend.TableMap
import SwiftRuntime.Backend.Handles
import SwiftRuntime.Backend.Replace
import SwiftRuntime.Backend.Remove
import SwiftRuntime.Common.BitFields
import SwiftRuntime.Common.MemArena
import SwiftRuntime.Common.ObjectPool
import SwiftRuntime.Common.SlabAlloc
import SwiftRuntime.Common.SlabSteps
import SwiftRuntime.Common.SlabStack
import SwiftRuntime.Backend.Dispatcher
import SwiftRuntime.Ir.Inst
import SwiftRuntime.Ir.Signatures
import SwiftRuntime.Ir.Builder
import SwiftRuntime.Ir.Rejected
import SwiftRuntime.Ir.BranchTargets
import SwiftRuntime.Ir.Edges
import SwiftRuntime.Ir.Values
import SwiftRuntime.Ir.Uses
import SwiftRuntime.Ir.LocalElimination
import SwiftRuntime.Ir.Phi
import SwiftRuntime.Ir.LoadPaths
import SwiftRuntime.Ir.CommonDominator
import SwiftRuntime.Ir.CfgAnalysis
import SwiftRuntime.Ir.IdByRpo
import SwiftRuntime.DepthFirst
import SwiftRuntime.Ancestors
import SwiftRuntime.DominatorSweep
import SwiftRuntime.Ir.Dominance
import SwiftRuntime.Host.HostMemory
import SwiftRuntime.Host.WindowsMapping
import SwiftRuntime.Ir.NumUse
import SwiftRuntime.Ir.PseudoChain
import SwiftRuntime.Ir.Numbering
import SwiftRuntime.Ir.Sweep
import SwiftRuntime.Ir.DominatorTree
import SwiftRuntime.Ir.DominateEdges
import SwiftRuntime.Ir.Feedback
import SwiftRuntime.Ir.BlockLists
import SwiftRuntime.Ir.Rpo
import SwiftRuntime.Ir.DestroyBlock
import SwiftRuntime.Vapours.Tree
import SwiftRuntime.Vapours.TreeInsert
import SwiftRuntime.Vapours.TreeRemove
import SwiftRuntime.Vapours.TreeWalk
import SwiftRuntime.Vapours.IntrusiveRedBlackTree
import SwiftRuntime.Backend.AddressSpace
import SwiftRuntime.Backend.CodeCaches
import SwiftRuntime.Ir.ValueMap
import SwiftRuntime.Ir.Execution
