import Orchestrion.Main
import Orchestrion.Proofs.PerformanceLength
import Orchestrion.Proofs.SoloVoices
import Orchestrion.Proofs.SettledValues
import Orchestrion.Proofs.SharedConfig
import Orchestrion.Proofs.Exports
import Orchestrion.Proofs.Layout
import Orchestrion.Proofs.LocalNames
import Orchestrion.Proofs.NodeSpans
import Orchestrion.Proofs.Annotations
import Orchestrion.Proofs.Agreement
import Orchestrion.Proofs.TickOrder
import Orchestrion.Proofs.Constants
import Orchestrion.Proofs.Listing
import Orchestrion.Proofs.WaveBlocks
import Orchestrion.Proofs.SettingsOrder
import Orchestrion.Proofs.Code.Patching
import Orchestrion.Proofs.LineTable
import Orchestrion.Proofs.ScoreGrammar
import Orchestrion.Proofs.Alignment
import Orchestrion.Proofs.Samples
