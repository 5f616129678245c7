import FourWorlds.Frame.Printer
import FourWorlds.Main
import FourWorlds.Proofs.Orbit
import FourWorlds.Proofs.RoundTrip
import FourWorlds.Proofs.Validity
import FourWorlds.Proofs.Morphism
import FourWorlds.Proofs.CanonicalIds
import FourWorlds.Proofs.Play
import FourWorlds.Proofs.HiddenFrame
import FourWorlds.Proofs.Turns
import FourWorlds.Proofs.Substitution
import FourWorlds.Proofs.Breaks
import FourWorlds.Proofs.Diagnosis
import FourWorlds.Proofs.FrameGrammar
import FourWorlds.Proofs.FrameReader
import FourWorlds.Proofs.OrbitPartition
import FourWorlds.Proofs.Session
import FourWorlds.Proofs.Confluence
import FourWorlds.Proofs.Row
import FourWorlds.Proofs.Juxtaposition
import FourWorlds.Proofs.Lockstep
import FourWorlds.Proofs.Bisimulation
import FourWorlds.Proofs.PartialMorphism
import FourWorlds.Proofs.Inference
import FourWorlds.Proofs.NestingDepth
import FourWorlds.Proofs.UniqueReading
import FourWorlds.Proofs.Separation
import FourWorlds.Proofs.FrameText
import FourWorlds.Proofs.RecursionDepth
import FourWorlds.Proofs.Arrangement
import FourWorlds.Proofs.ValuationOrder
import FourWorlds.Valuation.Walk
import FourWorlds.Proofs.ValuationWalk
import FourWorlds.Proofs.UnchangedFrames
import FourWorlds.Proofs.OrbitCount
import FourWorlds.Proofs.UniformPick
import FourWorlds.Proofs.QueryLines
import FourWorlds.Proofs.FrameViews
import FourWorlds.Proofs.CursorRun
import FourWorlds.Proofs.SessionText
