import SnesBackend.WordArith
import SnesBackend.Registers
import SnesBackend.InstrFormats
import SnesBackend.InstrInfo
import SnesBackend.CodeEmitter
import SnesBackend.EncodedBytes
import SnesBackend.ByteExec
import SnesBackend.ExpandPseudo
import SnesBackend.WordPseudos
import SnesBackend.CompareLowering
import SnesBackend.ImmSelection
import SnesBackend.BlockLayout
import SnesBackend.MachineFunction
import SnesBackend.BlockSplit
import SnesBackend.ShiftInsertion
import SnesBackend.SelectInsertion
import SnesBackend.CallSequence
import SnesBackend.CalleeSaved
import SnesBackend.DataLayout
import SnesBackend.FrameLayout
import SnesBackend.CallingConv
import SnesBackend.ListTiling
import SnesBackend.ArgumentPlaces
import SnesBackend.BytePatching
import SnesBackend.Fixups
import SnesBackend.ModifierFixups
import SnesBackend.LayoutBits
import SnesBackend.BranchFixups
import SnesBackend.EncodedFixups
import SnesBackend.ImmediateFixups
import SnesBackend.SymbolicOperands
import SnesBackend.CarryChain
import SnesBackend.ExpandPass
import SnesBackend.AtomicExec
import SnesBackend.AtomicPseudos
import SnesBackend.AtomicRuns
import SnesBackend.BitPatterns
import SnesBackend.DecoderTables
import SnesBackend.Disassembler
import SnesBackend.CompareChain
import SnesBackend.WordTransfers
import SnesBackend.ArgumentLocations
import SnesBackend.SaveRestore
import SnesBackend.BranchAnalysis
import SnesBackend.LayoutModifiers
import SnesBackend.InstrumentFunctions
import SnesBackend.AsmParser
import SnesBackend.AssemblyText
import SnesBackend.OperandClasses
import SnesBackend.SelectionPatterns
import SnesBackend.SelectedAccesses
import SnesBackend.AddressSelection
import SnesBackend.FoldedAccesses
import SnesBackend.RelaxedStores
import SnesBackend.LogicImmediates
import SnesBackend.SymbolAddresses
import SnesBackend.ShiftLoops
import SnesBackend.CarryRotation
import SnesBackend.Rotations
import SnesBackend.Multiplication
import SnesBackend.IndirectCalls
import SnesBackend.BitAccesses
import SnesBackend.CodePadding
import SnesBackend.FrameAnalyzer
import SnesBackend.LegalAddressing
import SnesBackend.ReturnLocations
import SnesBackend.StackPointerWrite
import SnesBackend.TemporaryLabels
import SnesBackend.SpeculativeParsing
import SnesBackend.ParserRounds
import SnesBackend.ParserAssertions
import SnesBackend.StatementEnds
import SnesBackend.OperandCasts
import SnesBackend.InlineAsmConstants
import SnesBackend.ExpansionSweeps
import SnesBackend.ArgumentParts
import SnesBackend.OperandLoop
import SnesBackend.BranchRelaxation
import SnesBackend.ExpansionMeaning
import SnesBackend.RelaxationRuns
import SnesBackend.RelaxationSizes
import SnesBackend.RelaxedAddresses
import SnesBackend.RelaxedControlFlow
import SnesBackend.ClearedProducts
import SnesBackend.ISelPseudos
import SnesBackend.ISelPseudoRuns
import SnesBackend.AtomicInterrupts
