import PacketTide.Effects.Proofs.ProgProofs
import PacketTide.FileSystem.Proofs.CallProofs
import PacketTide.Resume
import PacketTide.Proofs.BitmapProofs
import PacketTide.Proofs.ReceiptMapProofs
import PacketTide.FileSystem.Proofs.SlotProofs
import PacketTide.Proofs.AskProofs
import PacketTide.Proofs.ResumeProofs
import PacketTide.FileSystem.Proofs.BytesProofs
import PacketTide.Proofs.ResumeRunsProofs
import PacketTide.Manifest
import PacketTide.Proofs.ManifestProofs
import PacketTide.Staging
import PacketTide.Proofs.StagingCheckProofs
import PacketTide.FileSystem.Proofs.ReplyProofs
import PacketTide.Installed
import PacketTide.Proofs.InstallProofs
import PacketTide.Proofs.InstalledProofs
import PacketTide.Proofs.AtomicProofs
import PacketTide.Proofs.PrepareProofs
import PacketTide.Proofs.RecoverProofs
import PacketTide.Hmac
import PacketTide.Packet
import PacketTide.ReceiveUdp
import PacketTide.Control
import PacketTide.ManifestExchange
import PacketTide.Proofs.RoundTripProofs
import PacketTide.Cdc
import PacketTide.Proofs.CdcProofs
import PacketTide.Proofs.CdcLimitProofs
import PacketTide.Wire
import PacketTide.Handshake
import PacketTide.Network
import PacketTide.Proofs.WireProofs
import PacketTide.Proofs.HandshakeProofs
import PacketTide.Proofs.ChannelProofs
import PacketTide.Proofs.AgreementProofs
import PacketTide.Text.Proofs.WordProofs
import PacketTide.Proofs.SessionProofs
import PacketTide.Sha2
import PacketTide.Hello
import PacketTide.Proofs.FreshnessProofs
import PacketTide.PeerInput
import PacketTide.Proofs.PanicProofs
import PacketTide.Feedback
import PacketTide.Site
import PacketTide.Reuse
import PacketTide.ReceiveLoop
import PacketTide.Proofs.SiteProofs
import PacketTide.ReceiveRuns
import PacketTide.Proofs.HelloProofs
import PacketTide.Proofs.DiskProofs
import PacketTide.Proofs.DatagramProofs
import PacketTide.Proofs.ReuseProofs
import PacketTide.Proofs.StartProofs
import PacketTide.Proofs.TurnProofs
import PacketTide.Proofs.MomentProofs
import PacketTide.Proofs.CompletionProofs
import PacketTide.Proofs.ConsistencyProofs
import PacketTide.ReceiveAborts
import PacketTide.Proofs.AbortProofs
import PacketTide.Proofs.MismatchProofs
import PacketTide.Mac
import PacketTide.Proofs.MacProofs
import PacketTide.Pacer
import PacketTide.Proofs.PacerProofs
import PacketTide.Repairs
import PacketTide.Proofs.RepairProofs
import PacketTide.Proofs.ForgetProofs
import PacketTide.SendUdp
import PacketTide.Proofs.SendProofs
import PacketTide.SendTimes
import PacketTide.Proofs.SendTimesProofs
import PacketTide.Acceptance
import PacketTide.Proofs.AcceptanceProofs
import PacketTide.UdpTransfer
import PacketTide.Proofs.FeedbackProofs
import PacketTide.Proofs.SendStepProofs
import PacketTide.Proofs.PacketProofs
import PacketTide.Proofs.TransferProofs
import PacketTide.Proofs.OrderProofs
import PacketTide.Proofs.PhantomProofs
import PacketTide.Intervals.Basic
import PacketTide.Intervals.Runs
import PacketTide.Proofs.ReportProofs
import PacketTide.Proofs.CreditProofs
import PacketTide.Proofs.ScanProofs
import PacketTide.Proofs.CopyProofs
import PacketTide.Proofs.ExactReuseProofs
import PacketTide.Proofs.GreetingProofs
import PacketTide.Proofs.FrontierProofs
import PacketTide.Timelines.Basic
import PacketTide.Proofs.ManifestTreeProofs
import PacketTide.CdcMachine
import PacketTide.Proofs.CdcParseProofs
import PacketTide.Proofs.CdcCutProofs
import PacketTide.Cutting.Basic
import PacketTide.PacketMachine
import PacketTide.Proofs.PacketExactProofs
import PacketTide.Proofs.StagingSafetyProofs
import PacketTide.FileSystem.Proofs.AttrProofs
import PacketTide.Proofs.MetadataProofs
import PacketTide.SendArgs
import PacketTide.Proofs.SendArgsProofs
import PacketTide.ReceiveTcp
import PacketTide.SendObject
import PacketTide.SendTcp
import PacketTide.Tcp4
import PacketTide.BinaryChecks
import PacketTide.Proofs.BinaryCheckProofs
import PacketTide.Proofs.FallbackProofs
import PacketTide.ObjectRuns
import PacketTide.Proofs.ObjectProofs
import PacketTide.UdpSession
import PacketTide.Proofs.UdpSessionProofs
import PacketTide.Proofs.TelemetryProofs
import PacketTide.Proofs.DeliveryProofs
import PacketTide.Proofs.MapCodecProofs
import PacketTide.Settling.Basic
import PacketTide.RateController
import PacketTide.Proofs.RateProofs
import PacketTide.Proofs.ChargeProofs
import PacketTide.Proofs.SendTcpProofs
import PacketTide.Proofs.LaneProofs
import PacketTide.Proofs.ReassemblyProofs
import PacketTide.FileSystem.Listing
import PacketTide.FileSystem.Proofs.ListingProofs
import PacketTide.DirectoryScan
import PacketTide.Proofs.DirectoryScanProofs
import PacketTide.Mirror
import PacketTide.Proofs.MirrorProofs
import PacketTide.Effects.Proofs.ObeysProofs
import PacketTide.FileSystem.Proofs.ConfinedProofs
import PacketTide.ReceiveOn
import PacketTide.Proofs.ScopedFileProofs
import PacketTide.Proofs.ScopedReceiveProofs
import PacketTide.FileSystem.Proofs.BesidesProofs
import PacketTide.Proofs.HalfwayProofs
import PacketTide.Proofs.QuietProofs
import PacketTide.Proofs.ObjectReceiptProofs
import PacketTide.Proofs.TreeReceiptProofs
import PacketTide.Proofs.RoundProofs
import PacketTide.Proofs.KeyFileProofs
import PacketTide.Proofs.AdaptivePacingProofs
