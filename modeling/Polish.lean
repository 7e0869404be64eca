import Polish.Dialogue
import Polish.Directory
import Polish.Main
import Polish.Proofs.Compilation
import Polish.Proofs.Clustering
import Polish.Proofs.Spelling
import Polish.Proofs.Reduction
import Polish.Proofs.ParserState
import Polish.Proofs.Acceptance
import Polish.Proofs.Recovery
import Polish.Proofs.Decompilation
import Polish.Proofs.Faults
import Polish.Proofs.Lexicon
import Polish.Proofs.Spacing
import Polish.Proofs.Naming
import Polish.Proofs.RoundTrip
import Polish.Proofs.Infix
import Polish.Proofs.Lines
import Polish.Proofs.Listing
import Polish.Proofs.Console
import Polish.Proofs.Stages
import Polish.Proofs.EngineChoice
import Polish.Proofs.Halting
import Polish.Proofs.Underflow
import Polish.Proofs.Exact
import Polish.Proofs.WrapAround
import Polish.Proofs.Exactness
import Polish.Proofs.Pending
import Polish.Proofs.Transcription
import Polish.Proofs.Atomicity
import Polish.Proofs.Lockstep
import Polish.Proofs.Initialization
import Polish.Proofs.Dependence
import Polish.Proofs.ByteOrder
import Polish.Proofs.History
import Polish.Proofs.ArgumentUnits
import Polish.Proofs.Recorders
import Polish.Proofs.StackFrame
import Polish.Proofs.Scanning
import Polish.Proofs.Splitting
import Polish.Proofs.Numerals
